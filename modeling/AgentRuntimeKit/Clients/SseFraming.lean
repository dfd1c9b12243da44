import AgentRuntimeKit.Clients.Sse
import AgentRuntimeKit.Model.Messages

/-!
# SSE framing

Rendered event streams, and what `sse_data` makes of them. A payload is rendered as one `data: `
line for each of its pieces between line feeds, then a blank line; other lines may stand anywhere,
and each line may end in LF or CRLF. `_sse` of `service/app.py` renders so.

The payloads of complete events are to come back, these and no others, in their order, however the
bytes are cut. An event without its final blank line is not complete, and its payload is dropped.

The theorems here assume:

* `Renders` — a payload can be encoded and has no carriage return, which a decoder could not tell
  from one of a line ending; the other lines can be encoded, are not blank, and are no data fields
  (`IsOther`);
* `Bounded` — the events and the response are within the limits of the decoder;
* for `_sse`, that the payloads are JSON texts without control characters (`IsJsonText`), as
  pydantic writes them; how the service dumps events and errors is a parameter.

By `sseData_flatten` one chunk is enough. Its lines are those of the rendering, and the proof is an
induction on them that carries the data fields of the event so far.

## Results

* `sseData_rendered` — the payloads of complete events are recovered, and only these.
* `sse_framing`      — also where the final blank line is missing, and for the service.
-/

namespace AgentRuntimeKit

open Lib Utf8

def lineFeed : CodePoint := 10

def carriageReturn : CodePoint := 13

/-- A line of a rendered stream, without its ending. -/
inductive SseContent
  | data (piece : PyStr)
  | other (text : PyStr)

/-- A line, and whether it ends in CRLF. -/
structure SseRendered where
  content : SseContent
  crlf : Bool

def SseContent.text : SseContent → PyStr
  | data piece => PyStr.ofString "data: " ++ piece
  | other text => text

def SseContent.piece? : SseContent → Option PyStr
  | data piece => some piece
  | other _ => none

/-- A line ending without its line feed. -/
def ending (crlf : Bool) : List Byte := if crlf then [cr] else []

/-- A line without its line feed. -/
def SseRendered.raw (l : SseRendered) : List Byte := encode l.content.text ++ ending l.crlf

/-- Complete lines, as bytes. -/
def lineBytes (raws : List (List Byte)) : List Byte := raws.flatMap fun raw => raw ++ [lf]

/-- The pieces of the data lines among these. -/
def pieces (lines : List SseRendered) : List PyStr := lines.filterMap fun l => l.content.piece?

/-- A nonblank UTF-8 line that does not start with `data:`. -/
structure IsOther (text : PyStr) : Prop where
  encodable : text.encodable = true
  oneLine : lineFeed ∉ text
  nonblank : ∃ c ∈ text, c ≠ carriageReturn
  notData : ¬ dataField <+: text

/-- These lines render the payload, in order and among other lines. -/
structure Renders (payload : PyStr) (lines : List SseRendered) : Prop where
  encodable : payload.encodable = true
  noReturn : carriageReturn ∉ payload
  pieces : pieces lines = payload.splitOn lineFeed
  others : ∀ l ∈ lines, ∀ text, l.content = .other text → IsOther text

/-- A payload, the lines that render it, and whether its blank line ends in CRLF. -/
structure SseFrame where
  payload : PyStr
  lines : List SseRendered
  crlf : Bool
  renders : Renders payload lines

/-- The lines of the event and its blank line, without their line feeds. -/
def SseFrame.raws (f : SseFrame) : List (List Byte) :=
  f.lines.map SseRendered.raw ++ [ending f.crlf]

-- ---------------------------------------------------------------------------
-- Pieces
-- ---------------------------------------------------------------------------

theorem mem_splitOn {c : CodePoint} {s piece : PyStr} (h : piece ∈ s.splitOn c) :
    c ∉ piece ∧ ∀ x ∈ piece, x ∈ s := by
  induction s generalizing piece with
  | nil =>
    rw [List.splitOn_nil, List.mem_singleton] at h
    rw [h]
    exact ⟨List.not_mem_nil, fun _ hx => hx⟩
  | cons x s ih =>
    rw [List.splitOn_cons_eq_if_modifyHead] at h
    split at h
    · rcases List.mem_cons.mp h with rfl | h
      · exact ⟨List.not_mem_nil, fun _ hx => absurd hx List.not_mem_nil⟩
      · exact ⟨(ih h).1, fun y hy => List.mem_cons_of_mem _ ((ih h).2 y hy)⟩
    · next hne =>
      cases hs : s.splitOn c with
      | nil =>
        rw [hs] at h
        exact absurd h List.not_mem_nil
      | cons first rest =>
        rw [hs] at h ih
        rcases List.mem_cons.mp h with rfl | h
        · obtain ⟨hnot, hsub⟩ := ih List.mem_cons_self
          refine ⟨fun hmem => ?_, fun y hy => ?_⟩
          · rcases List.mem_cons.mp hmem with rfl | hmem
            · exact hne (by simp)
            · exact hnot hmem
          · rcases List.mem_cons.mp hy with rfl | hy
            · exact List.mem_cons_self
            · exact List.mem_cons_of_mem _ (hsub y hy)
        · obtain ⟨hnot, hsub⟩ := ih (List.mem_cons_of_mem _ h)
          exact ⟨hnot, fun y hy => List.mem_cons_of_mem _ (hsub y hy)⟩

/-- `"\n".join(payload.split("\n"))`. -/
theorem joinLines_splitOn (payload : PyStr) : joinLines (payload.splitOn lineFeed) = payload :=
  List.intercalate_splitOn lineFeed

-- ---------------------------------------------------------------------------
-- One line
-- ---------------------------------------------------------------------------

/-- A line that neither ends an event nor spoils it. -/
structure LineOk (l : SseRendered) : Prop where
  encodable : l.content.text.encodable = true
  oneLine : lineFeed ∉ l.content.text
  data : ∀ piece, l.content = .data piece → carriageReturn ∉ piece
  other : ∀ text, l.content = .other text → IsOther text

theorem encodeChar_last {c : CodePoint} (hc : c ≠ carriageReturn) :
    ∃ bytes b, encodeChar c = bytes ++ [b] ∧ b ≠ cr := by
  by_cases hascii : c.val < 0x80
  · refine ⟨[], UInt8.ofNat c.val, ?_, fun h => hc ?_⟩
    · unfold encodeChar
      rw [if_pos hascii, List.nil_append]
    · have hval : (UInt8.ofNat c.val).toNat = 13 := by
        rw [h]
        rfl
      rw [toNat_ofNat (by omega)] at hval
      exact Fin.ext hval
  · have hne : encodeChar c ≠ [] := by
      unfold encodeChar
      split
      · exact List.cons_ne_nil _ _
      · split
        · exact List.cons_ne_nil _ _
        · split <;> exact List.cons_ne_nil _ _
    refine ⟨(encodeChar c).dropLast, (encodeChar c).getLast hne,
      (List.dropLast_concat_getLast hne).symm, fun h => ?_⟩
    have hhigh := encodeChar_high (by omega) (List.getLast_mem hne)
    rw [h] at hhigh
    exact absurd hhigh (by decide)

/-- Stripping the bytes is stripping the text. -/
theorem rstrip_encode (s : PyStr) : (encode s).rdropWhile (· = cr) =
    encode (s.rdropWhile (· = carriageReturn)) := by
  induction s using List.reverseRecOn with
  | nil => rfl
  | append_singleton s c ih =>
    rw [encode_append]
    by_cases hc : c = carriageReturn
    · subst hc
      have hbytes : encode [carriageReturn] = [cr] := by decide
      rw [hbytes, List.rdropWhile_concat_pos _ _ _ (by decide),
        List.rdropWhile_concat_pos _ _ _ (by decide), ih]
    · obtain ⟨bytes, b, hbytes, hb⟩ := encodeChar_last hc
      have hsingle : encode [c] = bytes ++ [b] := by
        rw [encode_cons, encode_nil, List.append_nil, hbytes]
      rw [List.rdropWhile_concat_neg _ _ _ (by simpa using hc), encode_append, hsingle,
        ← List.append_assoc, List.rdropWhile_concat_neg _ _ _ (by simpa using hb)]

theorem rstrip_raw (l : SseRendered) : l.raw.rdropWhile (· = cr) =
    encode (l.content.text.rdropWhile (· = carriageReturn)) := by
  unfold SseRendered.raw ending
  cases l.crlf with
  | false =>
    rw [if_neg Bool.false_ne_true, List.append_nil]
    exact rstrip_encode _
  | true =>
    rw [if_pos rfl, List.rdropWhile_concat_pos _ _ _ (by decide)]
    exact rstrip_encode _

theorem encodable_of_initial {s t : PyStr} (h : s <+: t) (ht : t.encodable = true) :
    s.encodable = true :=
  List.all_eq_true.mpr fun c hc => List.all_eq_true.mp ht c (h.subset hc)

theorem decodeUtf8_encode {s : PyStr} (hs : s.encodable = true) :
    decodeUtf8 (encode s) = .ok s := by
  unfold decodeUtf8
  rw [decode_encode hs]
  rfl

/-- A line that is not too long, decoded. -/
theorem sseLine_decoded {fields : List PyStr} {n : Nat} {raw : List Byte} {line : PyStr}
    (hn : n + raw.length + 1 ≤ maxEventBytes)
    (hline : decodeUtf8 (raw.rdropWhile (· = cr)) = .ok line) :
    sseLine ⟨fields, n⟩ raw = sseText fields (n + raw.length + 1) line := by
  unfold sseLine
  rw [if_neg (Nat.not_lt.mpr hn), hline]
  rfl

/-- A line adds its piece, if it has one, and its bytes. -/
theorem sseLine_raw {l : SseRendered} (hl : LineOk l) {fields : List PyStr} {n : Nat}
    (hn : n + l.raw.length + 1 ≤ maxEventBytes) :
    sseLine ⟨fields, n⟩ l.raw =
      pure ⟨fields ++ l.content.piece?.toList, n + l.raw.length + 1⟩ := by
  have hprefix : l.content.text.rdropWhile (· = carriageReturn) <+: l.content.text :=
    List.rdropWhile_prefix _ _
  rw [sseLine_decoded hn (by
    rw [rstrip_raw]
    exact decodeUtf8_encode (encodable_of_initial hprefix hl.encodable))]
  cases hcontent : l.content with
  | data piece =>
    -- the line ends in no carriage return of its own
    have hkept : (SseContent.data piece).text.rdropWhile (· = carriageReturn) =
        (SseContent.data piece).text := by
      refine List.rdropWhile_eq_self_iff.mpr fun hne => ?_
      have hlast := List.getLast_mem hne
      have hnot : carriageReturn ∉ (SseContent.data piece).text := by
        intro hmem
        rcases List.mem_append.mp hmem with hmem | hmem
        · exact absurd hmem (by decide)
        · exact hl.data piece hcontent hmem
      intro heq
      have heq := of_decide_eq_true heq
      rw [heq] at hlast
      exact hnot hlast
    rw [hkept]
    rfl
  | other text =>
    obtain ⟨c, hc, hne⟩ := (hl.other text hcontent).nonblank
    have hnonempty : (SseContent.other text).text.rdropWhile (· = carriageReturn) ≠ [] := by
      intro hnil
      have hall := List.rdropWhile_eq_nil_iff.mp hnil c hc
      exact hne (of_decide_eq_true hall)
    have hnotData : ¬ dataField.isPrefixOf
        ((SseContent.other text).text.rdropWhile (· = carriageReturn)) = true := by
      intro hdata
      exact (hl.other text hcontent).notData
        ((List.isPrefixOf_iff_prefix.mp hdata).trans (List.rdropWhile_prefix _ _))
    have hnothing : fields ++ (SseContent.other text).piece?.toList = fields := List.append_nil _
    unfold sseText
    rw [if_neg hnonempty, if_neg hnotData, hnothing]

/-- Lines add their pieces and their bytes. -/
theorem foldlM_raw {lines : List SseRendered} (hlines : ∀ l ∈ lines, LineOk l)
    {fields : List PyStr} {n : Nat}
    (hn : n + (lineBytes (lines.map SseRendered.raw)).length ≤ maxEventBytes) :
    (lines.map SseRendered.raw).foldlM sseLine ⟨fields, n⟩ =
      pure ⟨fields ++ pieces lines, n + (lineBytes (lines.map SseRendered.raw)).length⟩ := by
  induction lines generalizing fields n with
  | nil =>
    show pure _ = pure _
    rw [show pieces [] = [] from rfl, List.append_nil]
    rfl
  | cons l lines ih =>
    have hbytes : (lineBytes ((l :: lines).map SseRendered.raw)).length =
        l.raw.length + 1 + (lineBytes (lines.map SseRendered.raw)).length := by
      simp only [lineBytes, List.map_cons, List.flatMap_cons, List.length_append,
        List.length_singleton]
    rw [hbytes] at hn ⊢
    have hrest := @ih (fun x hx => hlines x (List.mem_cons_of_mem _ hx))
      (fields ++ l.content.piece?.toList) (n + l.raw.length + 1) (by omega)
    rw [List.map_cons, List.foldlM_cons, sseLine_raw (hlines l List.mem_cons_self) (by omega),
      pure_bind, hrest]
    have hpieces : pieces (l :: lines) = l.content.piece?.toList ++ pieces lines := by
      unfold pieces
      rw [List.filterMap_cons]
      cases l.content.piece? <;> rfl
    rw [hpieces, List.append_assoc]
    congr 2
    omega

-- ---------------------------------------------------------------------------
-- Events
-- ---------------------------------------------------------------------------

theorem mem_pieces {lines : List SseRendered} {l : SseRendered} {piece : PyStr} (hl : l ∈ lines)
    (hpiece : l.content = .data piece) : piece ∈ pieces lines := by
  refine List.mem_filterMap.mpr ⟨l, hl, ?_⟩
  rw [hpiece]
  rfl

/-- The lines of a rendered payload. -/
theorem Renders.lineOk {payload : PyStr} {lines : List SseRendered} (h : Renders payload lines) :
    ∀ l ∈ lines, LineOk l := by
  intro l hl
  cases hcontent : l.content with
  | other text =>
    have hother := h.others l hl text hcontent
    refine ⟨?_, ?_, fun piece hdata => ?_, fun text' htext => ?_⟩
    · rw [hcontent]
      exact hother.encodable
    · rw [hcontent]
      exact hother.oneLine
    · rw [hcontent] at hdata
      exact SseContent.noConfusion hdata
    · exact h.others l hl text' htext
  | data piece =>
    have hpiece := mem_pieces hl hcontent
    rw [h.pieces] at hpiece
    obtain ⟨hnot, hsub⟩ := mem_splitOn hpiece
    refine ⟨?_, fun hmem => ?_, fun piece' hdata hmem => ?_, fun text hother => ?_⟩
    · rw [hcontent]
      refine List.all_eq_true.mpr fun c hc => ?_
      rcases List.mem_append.mp hc with hc | hc
      · exact List.all_eq_true.mp (show (PyStr.ofString "data: ").encodable = true by decide) c hc
      · exact List.all_eq_true.mp h.encodable c (hsub c hc)
    · rw [hcontent] at hmem
      rcases List.mem_append.mp hmem with hmem | hmem
      · exact absurd hmem (by decide)
      · exact hnot hmem
    · rw [hcontent] at hdata
      rw [← SseContent.data.inj hdata] at hmem
      exact h.noReturn (hsub _ hmem)
    · rw [hcontent] at hother
      exact SseContent.noConfusion hother

/-- A blank line ends the event. -/
theorem sseLine_blank {fields : List PyStr} (hfields : fields ≠ []) {n : Nat} {crlf : Bool}
    (hn : n + (ending crlf).length + 1 ≤ maxEventBytes) :
    sseLine ⟨fields, n⟩ (ending crlf) = ⟨[joinLines fields], .ok .start⟩ := by
  have hblank : decodeUtf8 ((ending crlf).rdropWhile (· = cr)) = .ok [] := by
    cases crlf <;> rfl
  rw [sseLine_decoded hn hblank]
  unfold sseText
  rw [if_pos rfl, if_pos hfields]
  rfl

theorem lineBytes_append (raws more : List (List Byte)) :
    lineBytes (raws ++ more) = lineBytes raws ++ lineBytes more := List.flatMap_append

/-- A complete event yields its payload. -/
theorem foldlM_frame {f : SseFrame} (hsize : (lineBytes f.raws).length ≤ maxEventBytes) :
    f.raws.foldlM sseLine .start = ⟨[f.payload], .ok .start⟩ := by
  have hblank : (lineBytes [ending f.crlf]).length = (ending f.crlf).length + 1 := by
    simp only [lineBytes, List.flatMap_cons, List.flatMap_nil, List.append_nil, List.length_append,
      List.length_singleton]
  unfold SseFrame.raws at hsize ⊢
  rw [lineBytes_append, List.length_append, hblank] at hsize
  have hlines := @foldlM_raw _ f.renders.lineOk [] 0 (by omega)
  rw [List.foldlM_append, show SseEvent.start = ⟨[], 0⟩ from rfl, hlines, pure_bind,
    List.foldlM_cons, List.nil_append, f.renders.pieces,
    sseLine_blank (List.splitOn_ne_nil _ _) (by omega), joinLines_splitOn]
  rfl

/-- Complete events yield their payloads. -/
theorem foldlM_frames {frames : List SseFrame}
    (hsize : ∀ f ∈ frames, (lineBytes f.raws).length ≤ maxEventBytes) :
    (frames.flatMap SseFrame.raws).foldlM sseLine .start =
      ⟨frames.map SseFrame.payload, .ok .start⟩ := by
  induction frames with
  | nil => rfl
  | cons f frames ih =>
    have hrest := ih fun f hf => hsize f (List.mem_cons_of_mem _ hf)
    rw [List.flatMap_cons, List.foldlM_append, foldlM_frame (hsize f List.mem_cons_self),
      Gen.ok_bind, hrest]
    rfl

-- ---------------------------------------------------------------------------
-- The whole stream
-- ---------------------------------------------------------------------------

/-- Complete lines are split where they were joined. -/
theorem splitLines_lineBytes {raws : List (List Byte)} (h : ∀ raw ∈ raws, lf ∉ raw) :
    splitLines (lineBytes raws) = (raws, []) := by
  induction raws with
  | nil => rfl
  | cons raw raws ih =>
    have hrest := ih fun x hx => h x (List.mem_cons_of_mem _ hx)
    have hcons : lineBytes (raw :: raws) = raw ++ lf :: lineBytes raws := by
      unfold lineBytes
      rw [List.flatMap_cons, List.append_assoc]
      rfl
    rw [hcons, splitLines_append_of_notMem (h raw List.mem_cons_self), splitLines_lf, hrest]
    simp only [List.append_nil]

theorem lf_notMem_ending (crlf : Bool) : lf ∉ ending crlf := by
  cases crlf <;> decide

theorem LineOk.lf_notMem {l : SseRendered} (h : LineOk l) : lf ∉ l.raw := by
  intro hmem
  rcases List.mem_append.mp hmem with hmem | hmem
  · exact h.oneLine (mem_encode (by decide) hmem)
  · exact lf_notMem_ending _ hmem

/-- A rendered stream: complete events, then lines without a blank one. -/
def streamBytes (frames : List SseFrame) (rest : List SseRendered) : List Byte :=
  lineBytes (frames.flatMap SseFrame.raws ++ rest.map SseRendered.raw)

/-- A stream within the limits of `sse_data`. -/
structure Bounded (frames : List SseFrame) (rest : List SseRendered) : Prop where
  total : (streamBytes frames rest).length ≤ maxResponseBytes
  events : ∀ f ∈ frames, (lineBytes f.raws).length ≤ maxEventBytes
  last : (lineBytes (rest.map SseRendered.raw)).length ≤ maxEventBytes

/-- The payloads of complete events are recovered, and only these. -/
theorem sseData_rendered {frames : List SseFrame} {rest : List SseRendered}
    {chunks : List (List Byte)} (hrest : ∀ l ∈ rest, LineOk l)
    (hchunks : chunks.flatten = streamBytes frames rest) (hbounded : Bounded frames rest) :
    sseData chunks = ⟨frames.map SseFrame.payload, .ok ()⟩ := by
  have hlines : ∀ raw ∈ frames.flatMap SseFrame.raws ++ rest.map SseRendered.raw, lf ∉ raw := by
    intro raw hraw
    rcases List.mem_append.mp hraw with hraw | hraw
    · obtain ⟨f, hf, hraw⟩ := List.mem_flatMap.mp hraw
      rcases List.mem_append.mp hraw with hraw | hraw
      · obtain ⟨l, hl, rfl⟩ := List.mem_map.mp hraw
        exact (f.renders.lineOk l hl).lf_notMem
      · rw [List.mem_singleton.mp hraw]
        exact lf_notMem_ending _
    · obtain ⟨l, hl, rfl⟩ := List.mem_map.mp hraw
      exact (hrest l hl).lf_notMem
  have hlast := hbounded.last
  have hfold : (frames.flatMap SseFrame.raws ++ rest.map SseRendered.raw).foldlM sseLine .start =
      ⟨frames.map SseFrame.payload,
        .ok ⟨pieces rest, (lineBytes (rest.map SseRendered.raw)).length⟩⟩ := by
    have htail := @foldlM_raw _ hrest [] 0 (by omega)
    rw [List.foldlM_append, foldlM_frames hbounded.events, Gen.ok_bind,
      show SseEvent.start = ⟨[], 0⟩ from rfl, htail, Nat.zero_add, Gen.pure_def, List.append_nil,
      List.nil_append]
  have hbuffer : sseBuffer .start (streamBytes frames rest).length
      (splitLines (streamBytes frames rest)) = ⟨frames.map SseFrame.payload,
        .ok ⟨[], ⟨pieces rest, (lineBytes (rest.map SseRendered.raw)).length⟩,
          (streamBytes frames rest).length⟩⟩ := by
    unfold streamBytes sseBuffer
    rw [splitLines_lineBytes hlines, hfold, Gen.ok_bind]
    have hfits : ¬ maxEventBytes < (lineBytes (rest.map SseRendered.raw)).length + 0 := by omega
    simp only [List.length_nil, if_neg hfits, Gen.pure_def, List.append_nil]
  have htotal : SseState.start.total + (streamBytes frames rest).length =
      (streamBytes frames rest).length := Nat.zero_add _
  have hchunk : sseChunk .start (streamBytes frames rest) = ⟨frames.map SseFrame.payload,
      .ok ⟨[], ⟨pieces rest, (lineBytes (rest.map SseRendered.raw)).length⟩,
        (streamBytes frames rest).length⟩⟩ := by
    rw [sseChunk_eq (by rw [htotal]; exact hbounded.total), htotal]
    exact hbuffer
  rw [sseData_flatten (hchunks ▸ hbounded.total), hchunks]
  unfold sseData
  rw [List.foldlM_cons, hchunk, Gen.ok_bind]
  show (⟨frames.map SseFrame.payload ++ [] ++ [], .ok ()⟩ : Gen Exn PyStr Unit) = _
  rw [List.append_nil, List.append_nil]

-- ---------------------------------------------------------------------------
-- The service
-- ---------------------------------------------------------------------------

/-- `_sse`. -/
def sse (event data : PyStr) : PyStr :=
  PyStr.ofString "event: " ++ event ++ PyStr.ofString "\ndata: " ++ data ++ PyStr.ofString "\n\n"

/-- `event.type`. -/
def RuntimeStreamEvent.type : RuntimeStreamEvent → String
  | started _ _ _ _ => "started"
  | textDelta _ => "text_delta"
  | toolResult _ => "tool_result"
  | completed _ => "completed"

/-- `ErrorEnvelope` with its `ErrorDetail`. -/
structure ErrorEnvelope where
  requestId : Uuid
  code : String
  message : String
  retryable : Bool

/-- The envelope that `events` of `stream_agent` sends for an exception. -/
def streamFailure (requestId : Uuid) : Exn → ErrorEnvelope
  | .kit cls message => ⟨requestId, cls.code, message, cls.retryable⟩
  | _ => ⟨requestId, "internal_error", "An internal error occurred", false⟩

section Service

-- `model_dump_json` of an event and of an envelope
variable (dumpEvent : RuntimeStreamEvent → PyStr) (dumpError : ErrorEnvelope → PyStr)

/-- The event names and the JSON payloads of a response: those of the runtime's events, and an
error if the runtime raised one. -/
def streamFrames (requestId : Uuid) (events : List RuntimeStreamEvent) (failure : Option Exn) :
    List (PyStr × PyStr) :=
  events.map (fun e => (PyStr.ofString e.type, dumpEvent e)) ++
    (failure.map fun e => (PyStr.ofString "error", dumpError (streamFailure requestId e))).toList

end Service

/-- The bytes of these frames. -/
def serviceBytes (frames : List (PyStr × PyStr)) : List Byte :=
  frames.flatMap fun frame => encode (sse frame.1 frame.2)

/-- A JSON text without control characters, as pydantic writes it: they are escaped in strings,
and none separates the tokens. -/
def IsJsonText (text : PyStr) : Prop :=
  text.encodable = true ∧ ∀ c ∈ text, 0x20 ≤ c.val

/-- The lines of `_sse`. -/
def sseLines (event data : PyStr) : List SseRendered :=
  [⟨.other (PyStr.ofString "event: " ++ event), false⟩, ⟨.data data, false⟩]

theorem encode_sse (event data : PyStr) : encode (sse event data) =
    lineBytes ((sseLines event data).map SseRendered.raw ++ [ending false]) := by
  have hend : encode (PyStr.ofString "\n\n") = [lf, lf] := by decide
  have hdata : encode (PyStr.ofString "\ndata: ") = lf :: encode (PyStr.ofString "data: ") := by
    decide
  unfold sse
  rw [encode_append, encode_append, encode_append, encode_append, hend, hdata]
  simp [sseLines, lineBytes, SseRendered.raw, SseContent.text, ending]

theorem IsJsonText.notMem {text : PyStr} (h : IsJsonText text) {c : CodePoint} (hc : c.val < 0x20) :
    c ∉ text := by
  intro hmem
  have := h.2 c hmem
  omega

/-- A JSON payload is rendered by the lines of `_sse`. -/
theorem renders_sseLines {event data : PyStr} (hevent : IsOther (PyStr.ofString "event: " ++ event))
    (hdata : IsJsonText data) : Renders data (sseLines event data) := by
  refine ⟨hdata.1, hdata.notMem (by decide), ?_, fun l hl text htext => ?_⟩
  · exact (List.splitOn_eq_singleton (hdata.notMem (by decide))).symm
  · rcases List.mem_cons.mp hl with rfl | hl
    · rw [← SseContent.other.inj htext]
      exact hevent
    · rw [List.mem_singleton.mp hl] at htext
      exact SseContent.noConfusion htext

/-- The frames of the service are rendered events. -/
theorem exists_frames {frames : List (PyStr × PyStr)}
    (hevents : ∀ frame ∈ frames, IsOther (PyStr.ofString "event: " ++ frame.1))
    (hdata : ∀ frame ∈ frames, IsJsonText frame.2) : ∃ rendered : List SseFrame,
      rendered.map SseFrame.payload = frames.map Prod.snd ∧
      rendered.map (fun f => lineBytes f.raws) =
        frames.map fun frame => encode (sse frame.1 frame.2) := by
  induction frames with
  | nil => exact ⟨[], rfl, rfl⟩
  | cons frame frames ih =>
    obtain ⟨rendered, hpayloads, hbytes⟩ :=
      ih (fun x hx => hevents x (List.mem_cons_of_mem _ hx)) fun x hx =>
        hdata x (List.mem_cons_of_mem _ hx)
    have hrenders := renders_sseLines (hevents frame List.mem_cons_self)
      (hdata frame List.mem_cons_self)
    refine ⟨⟨frame.2, sseLines frame.1 frame.2, false, hrenders⟩ :: rendered, ?_, ?_⟩
    · rw [List.map_cons, List.map_cons, hpayloads]
    · rw [List.map_cons, List.map_cons, hbytes, encode_sse]
      rfl

theorem lineBytes_frames (frames : List SseFrame) :
    streamBytes frames [] = (frames.map fun f => lineBytes f.raws).flatten := by
  unfold streamBytes
  rw [List.map_nil, List.append_nil]
  induction frames with
  | nil => rfl
  | cons f frames ih =>
    rw [List.flatMap_cons, lineBytes_append, ih]
    rfl

/-- The event names of the service. -/
theorem isOther_name : ∀ name ∈ ["started", "text_delta", "tool_result", "completed", "error"],
    IsOther (PyStr.ofString "event: " ++ PyStr.ofString name) := by
  have hname : ∀ name ∈ ["started", "text_delta", "tool_result", "completed", "error"],
      (PyStr.ofString "event: " ++ PyStr.ofString name).encodable = true ∧
        lineFeed ∉ PyStr.ofString "event: " ++ PyStr.ofString name := by decide
  intro name hmem
  obtain ⟨hencodable, hline⟩ := hname name hmem
  refine ⟨hencodable, hline, ⟨101, List.mem_append_left _ (by decide), by decide⟩, fun hdata => ?_⟩
  -- it starts with "e", not with "d"
  have hhead := List.cons_prefix_cons.mp
    (show 100 :: _ <+: 101 :: (_ : PyStr) from hdata)
  exact absurd hhead.1 (by decide)

theorem isOther_event (e : RuntimeStreamEvent) :
    IsOther (PyStr.ofString "event: " ++ PyStr.ofString e.type) := by
  refine isOther_name _ ?_
  cases e <;> simp [RuntimeStreamEvent.type]

section Framing

variable (dumpEvent : RuntimeStreamEvent → PyStr) (dumpError : ErrorEnvelope → PyStr)

theorem streamFrames_isOther {requestId : Uuid} {events : List RuntimeStreamEvent}
    {failure : Option Exn} : ∀ frame ∈ streamFrames dumpEvent dumpError requestId events failure,
      IsOther (PyStr.ofString "event: " ++ frame.1) := by
  intro frame hframe
  rcases List.mem_append.mp hframe with hframe | hframe
  · obtain ⟨e, -, rfl⟩ := List.mem_map.mp hframe
    exact isOther_event e
  · cases failure with
    | none => exact absurd hframe List.not_mem_nil
    | some e =>
      rw [List.mem_singleton.mp hframe]
      exact isOther_name "error" (by simp)

/-- What framing promises, within the limits and however the bytes are cut into chunks. -/
structure SseFraming : Prop where
  /-- Complete events, then other lines: exactly the payloads. -/
  complete : ∀ frames rest chunks,
    (∀ l ∈ rest, ∃ text, l.content = .other text ∧ IsOther text) →
    chunks.flatten = streamBytes frames rest → Bounded frames rest →
    sseData chunks = ⟨frames.map SseFrame.payload, .ok ()⟩
  /-- Without the final blank line: all payloads but the last. -/
  unterminated : ∀ frames (last : SseFrame) chunks,
    chunks.flatten = streamBytes frames last.lines → Bounded frames last.lines →
    sseData chunks = ⟨frames.map SseFrame.payload, .ok ()⟩
  /-- The frames that the service writes: exactly its JSON payloads. -/
  service : ∀ requestId events failure chunks,
    let frames := streamFrames dumpEvent dumpError requestId events failure
    (∀ frame ∈ frames, IsJsonText frame.2) → chunks.flatten = serviceBytes frames →
    (serviceBytes frames).length ≤ maxResponseBytes →
    (∀ frame ∈ frames, (encode (sse frame.1 frame.2)).length ≤ maxEventBytes) →
    sseData chunks = ⟨frames.map Prod.snd, .ok ()⟩

/-- **Framing decodes what it encodes**: complete events with other lines among them, a last event
without its blank line, and what the service writes, for any cut into chunks. The first two are
`sseData_rendered`, and the frames of the service are rendered frames. -/
theorem sse_framing : SseFraming dumpEvent dumpError := by
  constructor
  · intro frames rest chunks hothers hchunks hbounded
    refine sseData_rendered (fun l hl => ?_) hchunks hbounded
    obtain ⟨text, htext, hother⟩ := hothers l hl
    refine ⟨?_, ?_, fun piece h => ?_, fun text' h => ?_⟩
    · rw [htext]
      exact hother.encodable
    · rw [htext]
      exact hother.oneLine
    · rw [htext] at h
      exact SseContent.noConfusion h
    · rw [htext] at h
      rw [← SseContent.other.inj h]
      exact hother
  · exact fun frames last chunks hchunks hbounded =>
      sseData_rendered last.renders.lineOk hchunks hbounded
  · intro requestId events failure chunks frames hjson hchunks htotal hsize
    obtain ⟨rendered, hpayloads, hbytes⟩ :=
      exists_frames (streamFrames_isOther dumpEvent dumpError) hjson
    have hstream : streamBytes rendered [] = serviceBytes frames := by
      rw [lineBytes_frames, hbytes]
      rfl
    rw [← hpayloads]
    refine sseData_rendered (fun l hl => absurd hl List.not_mem_nil) (hchunks.trans hstream.symm) ?_
    refine ⟨hstream ▸ htotal, fun f hf => ?_, Nat.zero_le _⟩
    have hmem : lineBytes f.raws ∈ frames.map fun frame => encode (sse frame.1 frame.2) := by
      rw [← hbytes]
      exact List.mem_map_of_mem hf
    obtain ⟨frame, hframe, heq⟩ := List.mem_map.mp hmem
    rw [← heq]
    exact hsize frame hframe

end Framing

/-- `{"type":"text_delta","delta":"a"}`. -/
def Sample.deltaJson : PyStr := PyStr.ofString "\x7b\"type\":\"text_delta\",\"delta\":\"a\"\x7d"

set_option maxRecDepth 4000 in
/-- Two frames of the service, one byte at a time. -/
theorem sse_framing_deltas :
    sseData ((serviceBytes [(PyStr.ofString "text_delta", Sample.deltaJson),
      (PyStr.ofString "text_delta", Sample.deltaJson)]).map fun b => [b]) =
        ⟨[Sample.deltaJson, Sample.deltaJson], .ok ()⟩ := by
  refine (sse_framing (fun _ => Sample.deltaJson) fun _ => []).service 0
    [.textDelta [97], .textDelta [97]] none _ ?_ ?_ ?_ ?_
  · intro frame hframe
    have hprintable : Sample.deltaJson.all (fun c => 0x20 ≤ c.val) = true := by decide
    have hjson : IsJsonText Sample.deltaJson :=
      ⟨by decide, fun c hc => of_decide_eq_true (List.all_eq_true.mp hprintable c hc)⟩
    simp only [streamFrames, List.map_cons, List.map_nil, Option.map_none, Option.toList_none,
      List.append_nil, List.mem_cons, List.not_mem_nil, or_false, or_self] at hframe
    rw [hframe]
    exact hjson
  · rw [← List.flatMap_def, List.flatMap_singleton']
    rfl
  · decide
  · decide

end AgentRuntimeKit
