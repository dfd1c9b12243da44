import AgentRuntimeKit.Clients.Canonical

/-!
# Agreement of the two modes

What it means that a streamed answer agrees with the answer of a plain call, and what the adapters
have in common on the way there: both modes end in `assembled_result`, on the same calls and usage
and on texts that are cut into different pieces.
-/

namespace AgentRuntimeKit

open Lib

/-- The text of a message. -/
def Message.text (m : Message) : PyStr := (m.content.filterMap ContentPart.text?).flatten

/-- A `ProviderError` is raised. -/
def Rejects {α : Type} (x : Except Exn α) : Prop := ∃ e, x = .error e ∧ e.isProvider = true

theorem rejects_error {α : Type} (e : Exn) :
    Rejects (.error e : Except Exn α) ↔ e.isProvider = true := by
  constructor
  · rintro ⟨e', he, hp⟩
    cases he
    exact hp
  · intro hp
    exact ⟨e, rfl, hp⟩

theorem not_rejects_ok {α : Type} (a : α) : ¬Rejects (.ok a : Except Exn α) := by
  rintro ⟨e, he, -⟩
  cases he

/-- A stream that ends as the plain call does: with the same parts, calls and usage after deltas
that spell the text, or with a `ProviderError` where the plain call raises one. -/
structure StreamAgrees (plain : Except Exn ModelResult)
    (streamed : Gen Exn ModelStreamEvent Unit) : Prop where
  completes : ∀ r, plain = .ok r → ∃ (deltas : List PyStr) (r' : ModelResult),
    streamed = ⟨deltas.map .textDelta ++ [.completed r'.object], .ok ()⟩ ∧
      r'.message.content = r.message.content ∧ r'.toolCalls = r.toolCalls ∧ r'.usage = r.usage ∧
      deltas.flatten = r.message.text
  completed : streamed.ending = .ok () → ∃ r, plain = .ok r
  rejects : Rejects streamed.ending ↔ Rejects plain

/-- What the adapters make of texts, calls and usage that they have read. -/
structure Assembly (json : PyJson) (chunks : List PyStr) (calls : List ToolCall)
    (usage : Option Usage) (x : Except Exn ModelResult) : Prop where
  parts : ∀ r, x = .ok r →
    assembledParts chunks calls = .ok r.message.content ∧ r.toolCalls = calls ∧ r.usage = usage
  exists_iff : (∃ r, x = .ok r) ↔ Assembles json chunks calls
  deep_iff : TooDeep x ↔ DeepCalls json chunks calls
  raises : Raises json.Safe x

theorem assembly_assembledResult (json : PyJson) (id : Uuid) (chunks : List PyStr)
    (calls : List ToolCall) (usage : Option Usage) :
    Assembly json chunks calls usage (assembledResult json id chunks calls usage) where
  parts _ h := (parts_of_assembledResult h).2
  exists_iff := assembles_iff json id chunks calls usage
  deep_iff := deepCalls_iff json id chunks calls usage
  raises := raises_assembledResult json id chunks calls usage

/-- The check for an empty message in front of `assembled_result`. -/
theorem assembly_nonempty (json : PyJson) (id : Uuid) (chunks : List PyStr)
    (calls : List ToolCall) (usage : Option Usage) (message : String) :
    Assembly json chunks calls usage
      (if chunks = [] ∧ calls = [] then .error (rejected message)
        else assembledResult json id chunks calls usage) := by
  by_cases hempty : chunks = [] ∧ calls = []
  · have hno : ¬Fits chunks calls := fun h => h.nonempty.elim (absurd hempty.1) (absurd hempty.2)
    rw [if_pos hempty]
    refine ⟨fun r h => (by cases h), ⟨?_, fun h => absurd h.toFits hno⟩,
      ⟨?_, fun h => absurd h.fits hno⟩, Raises.error (safe_rejected _)⟩
    · rintro ⟨r, h⟩
      cases h
    · intro hdeep
      cases (tooDeep_error _).mp hdeep
  · rw [if_neg hempty]
    exact assembly_assembledResult json id chunks calls usage

/-- A `ProviderError` is raised where there is no result and nothing nests too deeply. -/
theorem Assembly.rejects_iff {json : PyJson} {chunks : List PyStr} {calls : List ToolCall}
    {usage : Option Usage} {x : Except Exn ModelResult} (h : Assembly json chunks calls usage x) :
    Rejects x ↔ ¬Assembles json chunks calls ∧ ¬DeepCalls json chunks calls := by
  rw [← h.exists_iff, ← h.deep_iff]
  cases x with
  | ok r => exact iff_of_false (not_rejects_ok r) fun hno => hno.1 ⟨r, rfl⟩
  | error e =>
    rw [rejects_error, tooDeep_error]
    constructor
    · intro hp
      refine ⟨?_, ?_⟩
      · rintro ⟨r, hr⟩
        cases hr
      · rw [not_recursion_of_provider hp]
        exact Bool.false_ne_true
    · rintro ⟨-, hno⟩
      rcases h.raises e rfl with hp | hdeep
      · exact hp
      · exact absurd hdeep.recursion hno

theorem Assembly.rejects_of_not_fits {json : PyJson} {chunks : List PyStr} {calls : List ToolCall}
    {usage : Option Usage} {x : Except Exn ModelResult} (h : Assembly json chunks calls usage x)
    (hfits : ¬Fits chunks calls) : Rejects x :=
  h.rejects_iff.mpr ⟨fun ha => hfits ha.toFits, fun hd => hfits hd.fits⟩

/-- A handler keeps what is rejected. -/
theorem Rejects.translate {α : Type} {x : Except Exn α} (h : Rejects x) {classes : List PyClass}
    {failure : Exn} (hfailure : failure.isProvider = true) :
    Rejects (x.mapError (AgentRuntimeKit.translate classes failure)) := by
  obtain ⟨e, rfl, hp⟩ := h
  refine ⟨AgentRuntimeKit.translate classes failure e, rfl, ?_⟩
  rw [AgentRuntimeKit.translate]
  split
  · exact hfailure
  · exact hp

theorem Assembly.translate {json : PyJson} {chunks : List PyStr} {calls : List ToolCall}
    {usage : Option Usage} {x : Except Exn ModelResult} (h : Assembly json chunks calls usage x)
    {classes : List PyClass} {failure : Exn}
    (hclasses : ∀ message, (Exn.py .recursionError message).isOneOf classes = false)
    (hfailure : failure.isProvider = true) :
    Assembly json chunks calls usage
      (x.mapError (AgentRuntimeKit.translate classes failure)) where
  parts r hr := h.parts r (mapError_eq_ok.mp hr)
  exists_iff := by simp only [mapError_eq_ok, h.exists_iff]
  deep_iff := (tooDeep_translate hclasses hfailure).trans h.deep_iff
  raises := Raises.mapError fun e he => by
    have hcaught : json.Caught classes e := Or.inl (h.raises e he)
    exact hcaught.translate hfailure

/-! ## The same text in different pieces -/

/-- Two ways to cut one text. -/
structure SameText (chunks pieces : List PyStr) : Prop where
  flatten : pieces.flatten = chunks.flatten
  nonempty : pieces = [] ↔ chunks = []

theorem SameText.of_flatten {chunks pieces : List PyStr} (hchunks : ∀ t ∈ chunks, t ≠ [])
    (hpieces : ∀ p ∈ pieces, p ≠ []) (h : pieces.flatten = chunks.flatten) :
    SameText chunks pieces := by
  have hempty {ts : List PyStr} (hts : ∀ t ∈ ts, t ≠ []) : ts = [] ↔ ts.flatten = [] := by
    constructor
    · intro hnil
      rw [hnil]
      rfl
    · intro hflat
      refine List.eq_nil_iff_forall_not_mem.mpr fun t ht => hts t ht ?_
      exact List.flatten_eq_nil_iff.mp hflat t ht
  refine ⟨h, ?_⟩
  rw [hempty hpieces, hempty hchunks, h]

theorem assembledParts_congr {chunks pieces : List PyStr} (h : SameText chunks pieces)
    (calls : List ToolCall) : assembledParts pieces calls = assembledParts chunks calls := by
  rw [assembledParts, assembledParts, h.flatten]
  by_cases hchunks : chunks = []
  · rw [if_pos (h.nonempty.mpr hchunks), if_pos hchunks]
  · rw [if_neg (mt h.nonempty.mp hchunks), if_neg hchunks]

theorem Fits.congr {chunks pieces : List PyStr} {calls : List ToolCall} (hfits : Fits chunks calls)
    (h : SameText chunks pieces) : Fits pieces calls where
  ids := hfits.ids
  text hne := by
    rw [h.flatten]
    exact hfits.text (mt h.nonempty.mpr hne)
  nonempty := hfits.nonempty.imp_left fun hne => mt h.nonempty.mp hne
  size := by
    have hsize : (if pieces = [] then 0 else 1) = if chunks = [] then 0 else 1 := by
      simp only [h.nonempty]
    rw [hsize]
    exact hfits.size

theorem SameText.symm {chunks pieces : List PyStr} (h : SameText chunks pieces) :
    SameText pieces chunks := ⟨h.flatten.symm, h.nonempty.symm⟩

theorem assembles_congr (json : PyJson) {chunks pieces : List PyStr} (h : SameText chunks pieces)
    (calls : List ToolCall) : Assembles json pieces calls ↔ Assembles json chunks calls :=
  ⟨fun ha => ⟨ha.toFits.congr h.symm, ha.written⟩, fun ha => ⟨ha.toFits.congr h, ha.written⟩⟩

theorem deepCalls_congr (json : PyJson) {chunks pieces : List PyStr} (h : SameText chunks pieces)
    (calls : List ToolCall) : DeepCalls json pieces calls ↔ DeepCalls json chunks calls :=
  ⟨fun hd => ⟨hd.fits.congr h.symm, hd.deep⟩, fun hd => ⟨hd.fits.congr h, hd.deep⟩⟩

/-- The end of a stream: the result, or the exception that takes its place. -/
def concluded (x : Except Exn ModelResult) : Gen Exn ModelStreamEvent Unit := do
  let result ← .ofExcept x
  .yield (.completed result.object)

theorem concluded_ok (r : ModelResult) : concluded (.ok r) = ⟨[.completed r.object], .ok ()⟩ := rfl

theorem ending_concluded (x : Except Exn ModelResult) :
    (concluded x).ending = .ok () ↔ ∃ r, x = .ok r := by
  cases x with
  | ok r => exact ⟨fun _ => ⟨r, rfl⟩, fun _ => rfl⟩
  | error e =>
    constructor
    · intro h
      cases h
    · rintro ⟨r, h⟩
      cases h

theorem rejects_concluded (x : Except Exn ModelResult) :
    Rejects (concluded x).ending ↔ Rejects x := by
  cases x with
  | ok r => exact iff_of_false (not_rejects_ok ()) (not_rejects_ok r)
  | error e =>
    show Rejects (.error e : Except Exn Unit) ↔ _
    rw [rejects_error, rejects_error]

/-- The text of a message is that of the pieces it was assembled from. -/
theorem text_of_parts {chunks : List PyStr} {calls : List ToolCall} {m : Message}
    (h : assembledParts chunks calls = .ok m.content) : m.text = chunks.flatten := by
  obtain ⟨-, htext, -⟩ := toolCalls_of_parts h
  rw [Message.text, htext]
  by_cases hchunks : chunks = []
  · rw [if_pos hchunks, hchunks]
  · rw [if_neg hchunks, List.flatten_cons, List.flatten_nil, List.append_nil]

/-- Both modes assemble the same calls and usage, and the same text cut differently. -/
theorem StreamAgrees.of_assembly {json : PyJson} {chunks pieces : List PyStr}
    {calls : List ToolCall}
    {usage : Option Usage} {x y : Except Exn ModelResult} (hx : Assembly json chunks calls usage x)
    (hy : Assembly json pieces calls usage y) (htext : SameText chunks pieces) :
    StreamAgrees x ⟨pieces.map .textDelta ++ (concluded y).yields, (concluded y).ending⟩ := by
  have hexists : (∃ r, y = .ok r) ↔ ∃ r, x = .ok r := by
    rw [hy.exists_iff, hx.exists_iff]
    exact assembles_congr json htext calls
  refine ⟨fun r hr => ?_, fun h => ?_, ?_⟩
  · obtain ⟨r', hr'⟩ := hexists.mpr ⟨r, hr⟩
    obtain ⟨hparts, hcalls, husage⟩ := hx.parts r hr
    obtain ⟨hparts', hcalls', husage'⟩ := hy.parts r' hr'
    rw [assembledParts_congr htext, hparts] at hparts'
    refine ⟨pieces, r', ?_, (Except.ok.inj hparts').symm, hcalls'.trans hcalls.symm,
      husage'.trans husage.symm, ?_⟩
    · rw [hr', concluded_ok]
    · rw [htext.flatten, text_of_parts hparts]
  · exact hexists.mp ((ending_concluded y).mp h)
  · rw [rejects_concluded, hy.rejects_iff, hx.rejects_iff, assembles_congr json htext,
      deepCalls_congr json htext]

/-- Both modes raise a `ProviderError`. -/
theorem StreamAgrees.of_rejects {x : Except Exn ModelResult}
    {streamed : Gen Exn ModelStreamEvent Unit} (hx : Rejects x) (hs : Rejects streamed.ending) :
    StreamAgrees x streamed := by
  obtain ⟨e, he, hp⟩ := hx
  obtain ⟨e', he', hp'⟩ := hs
  refine ⟨fun r hr => ?_, fun h => ?_, fun _ => ⟨e, he, hp⟩, fun _ => ⟨e', he', hp'⟩⟩
  · rw [he] at hr
    cases hr
  · rw [he'] at h
    cases h

/-- Two modes without a result. -/
theorem StreamAgrees.iff_of_error {x : Except Exn ModelResult} {e e' : Exn}
    {streamed : Gen Exn ModelStreamEvent Unit} (hx : x = .error e)
    (hs : streamed.ending = .error e') :
    StreamAgrees x streamed ↔ (Rejects streamed.ending ↔ Rejects x) := by
  refine ⟨fun h => h.rejects, fun h => ⟨fun r hr => ?_, fun hok => ?_, h⟩⟩
  · rw [hx] at hr
    cases hr
  · rw [hs] at hok
    cases hok

/-! ## Pieces as they are yielded -/

theorem yieldText_of_encodable {delta : PyStr} (hne : delta ≠ []) (h : delta.encodable = true) :
    yieldText delta = .yield (.textDelta delta) := by
  have hlength : (1 ≤ delta.length) := List.length_pos_iff.mpr hne
  rw [yieldText, h, decide_eq_true hlength]
  rfl

theorem forM_yieldText {pieces : List PyStr} (hne : ∀ p ∈ pieces, p ≠ [])
    (h : ∀ p ∈ pieces, p.encodable = true) :
    pieces.forM yieldText = (⟨pieces.map .textDelta, .ok ()⟩ : Gen Exn ModelStreamEvent Unit) := by
  induction pieces with
  | nil => rfl
  | cons piece pieces ih =>
    have hhead := yieldText_of_encodable (hne piece List.mem_cons_self) (h piece List.mem_cons_self)
    have htail := ih (fun p hp => hne p (List.mem_cons_of_mem _ hp))
      fun p hp => h p (List.mem_cons_of_mem _ hp)
    show (yieldText piece >>= fun _ => pieces.forM yieldText) = _
    rw [hhead, htail]
    rfl

/-- A piece with half a surrogate pair ends the loop. -/
theorem forM_yieldText_invalid {pieces : List PyStr} (h : ∃ p ∈ pieces, p.encodable = false) :
    ∃ e, (pieces.forM yieldText : Gen Exn ModelStreamEvent PUnit).ending = .error e := by
  induction pieces with
  | nil =>
    obtain ⟨p, hp, -⟩ := h
    exact absurd hp List.not_mem_nil
  | cons piece pieces ih =>
    show ∃ e, (yieldText piece >>= fun _ => pieces.forM yieldText).ending = .error e
    by_cases hpiece : 1 ≤ piece.length ∧ piece.encodable = true
    · obtain ⟨p, hp, hbad⟩ := h
      have hmem : p ∈ pieces := by
        rcases List.mem_cons.mp hp with rfl | hp
        · rw [hpiece.2] at hbad
          cases hbad
        · exact hp
      have hyield := yieldText_of_encodable (List.length_pos_iff.mp hpiece.1) hpiece.2
      rw [hyield, Gen.yield_bind]
      exact ih ⟨p, hmem, hbad⟩
    · have hraise : yieldText piece = .raise (invalid "ModelTextDelta") := by
        rw [yieldText, if_neg]
        rw [Bool.and_eq_true, decide_eq_true_eq]
        exact hpiece
      rw [hraise, Gen.raise_bind]
      exact ⟨_, rfl⟩

theorem encodable_flatten (pieces : List PyStr) :
    PyStr.encodable pieces.flatten = true ↔ ∀ p ∈ pieces, p.encodable = true := by
  rw [PyStr.encodable, List.all_eq_true]
  constructor
  · intro h p hp
    rw [PyStr.encodable, List.all_eq_true]
    exact fun c hc => h c (List.mem_flatten.mpr ⟨p, hp, hc⟩)
  · intro h c hc
    obtain ⟨p, hp, hmem⟩ := List.mem_flatten.mp hc
    exact List.all_eq_true.mp (h p hp) c hmem

/-- The text of a result encodes to UTF-8. -/
theorem Fits.encodable {chunks : List PyStr} {calls : List ToolCall}
    (h : Fits chunks calls) : PyStr.encodable chunks.flatten = true := by
  by_cases hchunks : chunks = []
  · rw [hchunks]
    rfl
  · have hvalid := h.text hchunks
    rw [isStrField, Bool.and_eq_true] at hvalid
    exact hvalid.2

/-! ## What is raised when no text nests too deeply -/

/-- A reader and writer that raises nothing but `ValueError` on a long integer. -/
def PyJson.silent : PyJson where
  loads _ := .ok .none
  loadsBytes _ := .ok .none
  dumps _ := .ok []
  walks _ := true
  dumpsSorted := sortedText
  raises _ _ h := by cases h
  raisesBytes _ _ h := by cases h
  raisesDumps _ _ h := by cases h
  raisesSorted := isJsonError_sortedText
  text_of_sorted := sortedText_eq_ok

/-- Nothing is too deep for it. -/
theorem not_deep_silent (e : Exn) : ¬PyJson.silent.Deep e := by
  rintro ⟨hrecursion, ⟨t, ht⟩ | ⟨b, hb⟩ | ⟨v, hv | hv⟩⟩
  · cases ht
  · cases hb
  · cases hv
  · obtain ⟨message, rfl⟩ := sortedText_eq_error hv
    cases hrecursion

/-- What is caught whatever the reader raises becomes a `ProviderError`. -/
theorem caught_silent {classes : List PyClass} {e failure : Exn}
    (h : PyJson.silent.Caught classes e) (hfailure : failure.isProvider = true) :
    (translate classes failure e).isProvider = true := by
  rcases h.translate hfailure with hp | hd
  · exact hp
  · exact absurd hd (not_deep_silent _)

/-- A handler of `ValueError` and the like turns every other exception into a `ProviderError`. -/
theorem rejects_translate {α : Type} {json : PyJson} {classes : List PyClass} {failure : Exn}
    {x : Except Exn α} (hx : Raises (json.Caught classes) x) (hfailure : failure.isProvider = true)
    (hclasses : ∀ message, (Exn.py .recursionError message).isOneOf classes = false) :
    Rejects (x.mapError (translate classes failure)) ↔ (∃ e, x = .error e) ∧ ¬TooDeep x := by
  cases x with
  | ok a =>
    refine iff_of_false (not_rejects_ok a) ?_
    rintro ⟨⟨e, he⟩, -⟩
    cases he
  | error e =>
    show Rejects (.error (translate classes failure e) : Except Exn α) ↔ _
    rw [rejects_error, tooDeep_error]
    by_cases hr : e.isRecursion = true
    · -- no handler catches it
      have hkeep : translate classes failure e = e := by
        cases e with
        | py cls message =>
          cases cls with
          | recursionError =>
            rw [translate, hclasses message, if_neg Bool.false_ne_true]
          | _ => cases hr
        | _ => cases hr
      have hno : ¬e.isProvider = true := by
        intro hp
        cases e with
        | py cls message => cases hp
        | _ => cases hr
      rw [hkeep]
      exact ⟨fun hp => absurd hp hno, fun h => absurd hr h.2⟩
    · refine ⟨fun _ => ⟨⟨e, rfl⟩, hr⟩, fun _ => ?_⟩
      rcases (hx e rfl).translate hfailure with hp | hd
      · exact hp
      · rw [translate] at hd ⊢
        split at hd
        · next hcaught =>
          rw [if_pos hcaught]
          exact hfailure
        · exact absurd hd.recursion hr

namespace Sample

/-- `json`, on the texts of some values and on texts that are no JSON. -/
def readerOf (values : List PyValue) : PyJson where
  loads t :=
    match values.find? fun v => v.dumps (.plain true) = t with
    | some v => .ok v
    | none => .error (.py .valueError "Expecting value")
  loadsBytes b :=
    match values.find? fun v => Utf8.encode (v.dumps (.plain true)) = b with
    | some v => .ok v
    | none => .error (.py .valueError "Expecting value")
  dumps v :=
    match v.dumps? (.plain true) with
    | some t => .ok t
    | none => .error (.py .valueError "Exceeds the limit for integer string conversion")
  walks _ := true
  dumpsSorted := sortedText
  raises t e h := by
    split at h
    · cases h
    · cases h
      rfl
  raisesBytes b e h := by
    split at h
    · cases h
    · cases h
      rfl
  raisesDumps v e h := by
    split at h
    · cases h
    · cases h
      rfl
  raisesSorted := isJsonError_sortedText
  text_of_sorted := sortedText_eq_ok

end Sample

end AgentRuntimeKit
