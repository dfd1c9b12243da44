import AgentRuntimeKit.Context.Groups
import AgentRuntimeKit.Model.Documents
import Mathlib.Algebra.Order.BigOperators.Group.Finset

/-!
# Exact and stable selections

What `ContextWindow.select` selects, in terms of the groups of the conversation and of the bytes
of JSON arrays: the mandatory messages, and of the other groups the longest suffix that fits. The
selected messages are a well-formed conversation again, and selecting from them changes nothing.

The selector encodes each message before it looks at the budget, and keeps the lengths. All results
here are for every encoder that is canonical (`CanonicalEncoder`): what it returns is the compact
UTF-8 JSON of the document of the message, and what it raises is an exception of Python, not one of
this package. The encoder of the source is `Message.canonicalBytes`, which raises for a value that
nests too deeply, an integer with too many digits and a lone surrogate.

The loop of `select` is related to the groups by `Scan.Grouped` (see `Context.Groups`), and the
filling loop to the longest fitting suffix by `fill_eq`. What is added here is the arithmetic of
brackets and commas: a selection costs the sizes of its messages with one byte more for each, and
the array has one byte more than that, or two where it is empty (`length_arrayBytes`). Hence the
running totals of the loops are the lengths of real arrays (`bytesAt_eq`).

For the second selection, whole groups are well formed by themselves, so dropping older ones leaves
a well-formed conversation (`wellFormed_pick`); it fits, because its array is the one that was
measured, and where everything fits everything is selected (`select_all`).

## Results

* `select_exact`  — what is selected, and when the budget is exceeded.
* `select_stable` — no exchange is broken, and a second selection keeps everything.
-/

namespace AgentRuntimeKit

open Lib StreamingSelection

-- ---------------------------------------------------------------------------
-- The bytes of messages
-- ---------------------------------------------------------------------------

/-- `json.dumps(message.model_dump(mode="json"), …).encode("utf-8")`. A surrogate raises
`UnicodeEncodeError`, which is a `ValueError`; no message holds a `NaN`. -/
def Message.canonicalBytes : Encoder := fun m =>
  match m.modelDump? with
  | none => .error (.py .valueError "Circular reference detected (depth exceeded)")
  | some document =>
    match document.dumps? .compact with
    | none =>
      .error (.py .valueError "Exceeds the limit (4300 digits) for integer string conversion")
    | some text =>
      if text.encodable then .ok (Utf8.encode text)
      else .error (.py .valueError "'utf-8' codec can't encode character: surrogates not allowed")

/-- An encoder that returns the compact UTF-8 JSON of a message, or raises what pydantic, `json`
and the codec may raise. -/
structure CanonicalEncoder (encode : Encoder) : Prop where
  text : ∀ m bytes, encode m = .ok bytes → bytes = Utf8.encode (m.modelDump.dumps .compact)
  raises : ∀ m e, encode m = .error e → ∃ cls message, e = .py cls message

/-- The compact JSON array of some messages, in UTF-8. -/
def arrayBytes (messages : List Message) : List Byte :=
  Utf8.encode ((PyValue.list (messages.map Message.modelDump)).dumps .compact)

theorem canonicalEncoder_canonicalBytes : CanonicalEncoder Message.canonicalBytes := by
  constructor
  · intro m bytes h
    rw [Message.canonicalBytes, Message.modelDump?] at h
    by_cases hdumpable : m.dumpable = true
    · simp only [if_pos hdumpable, PyValue.dumps?] at h
      by_cases hprintable : m.modelDump.printable = true
      · simp only [if_pos hprintable] at h
        split at h
        · exact (Except.ok.inj h).symm
        · cases h
      · simp only [if_neg hprintable] at h
        cases h
    · simp only [if_neg hdumpable] at h
      cases h
  · intro m e h
    rw [Message.canonicalBytes] at h
    split at h
    · exact ⟨_, _, (Except.error.inj h).symm⟩
    · split at h
      · exact ⟨_, _, (Except.error.inj h).symm⟩
      · split at h
        · cases h
        · exact ⟨_, _, (Except.error.inj h).symm⟩

theorem CanonicalEncoder.ne_budgetExceeded {encode : Encoder} (h : CanonicalEncoder encode)
    (m : Message) (e : Exn) (herror : encode m = .error e) : e ≠ budgetExceeded := by
  obtain ⟨cls, message, rfl⟩ := h.raises m e herror
  intro hbudget
  cases hbudget

theorem length_intercalate (items : List PyStr) :
    (Utf8.encode ((PyStr.ofString ",").intercalate items)).length + 2 =
      bytesOf (total (fun item => (Utf8.encode item).length + 1) items) := by
  have hone (xs : List PyStr) (x : PyStr) :
      (Utf8.encode ((PyStr.ofString ",").intercalate (x :: xs))).length + 1 =
        total (fun item => (Utf8.encode item).length + 1) (x :: xs) := by
    induction xs generalizing x with
    | nil =>
      show (Utf8.encode (x ++ [])).length + 1 = _
      rw [List.append_nil]
      rfl
    | cons y ys ih =>
      have hjoin : (PyStr.ofString ",").intercalate (x :: y :: ys) =
          x ++ (PyStr.ofString "," ++ (PyStr.ofString ",").intercalate (y :: ys)) := rfl
      rw [hjoin, Utf8.encode, List.flatMap_append, List.flatMap_append, List.length_append,
        List.length_append, total_cons, ← ih y]
      show (Utf8.encode x).length + (1 + (Utf8.encode _).length) + 1 = _
      omega
  cases items with
  | nil => rfl
  | cons x xs =>
    have hpos : total (fun item => (Utf8.encode item).length + 1) (x :: xs) ≠ 0 := by
      rw [total_cons]
      omega
    rw [bytesOf_pos hpos, ← hone xs x]

/-- An array costs its items and their punctuation. -/
theorem length_arrayBytes {encode : Encoder} (hcanonical : CanonicalEncoder encode)
    {messages : List Message} (h : ∀ m ∈ messages, hasEncoding encode m) :
    (arrayBytes messages).length = bytesOf (total (fun m => sizeOf encode m + 1) messages) := by
  have hitems (vs : List PyValue) : PyValue.dumpsList .compact vs =
      vs.map fun v => v.dumps .compact := by
    induction vs with
    | nil => rfl
    | cons v vs ih => rw [PyValue.dumpsList, List.map_cons, ih]
  have hsizes : total (fun m => sizeOf encode m + 1) messages =
      total (fun item => (Utf8.encode item).length + 1)
        (messages.map fun m => m.modelDump.dumps .compact) := by
    rw [total_map, total, total]
    refine congrArg List.sum (List.map_congr_left fun m hm => ?_)
    obtain ⟨bytes, hbytes⟩ := h m hm
    rw [sizeOf, hbytes, hcanonical.text m bytes hbytes]
  have harray (vs : List PyValue) : (PyValue.list vs).dumps .compact = PyStr.ofString "[" ++
      (PyStr.ofString ",").intercalate (PyValue.dumpsList .compact vs) ++ PyStr.ofString "]" := by
    rw [PyValue.dumps.eq_def]
    rfl
  rw [arrayBytes, harray, hitems, List.map_map, hsizes, ← length_intercalate, Utf8.encode,
    List.flatMap_append, List.flatMap_append, List.length_append, List.length_append]
  show 1 + (Utf8.encode _).length + 1 = _
  rw [Nat.add_comm 1, Nat.add_assoc]
  rfl

-- ---------------------------------------------------------------------------
-- The selection
-- ---------------------------------------------------------------------------

/-- The messages at some of the indices, in order. -/
def pick (messages : List Message) (indices : Finset Nat) : List Message :=
  (indices.sort (· ≤ ·)).filterMap fun index => messages[index]?

/-- A group that shares a message with the request. -/
def isCurrent (n : Nat) (group : List Nat) : Bool := group.any fun index => n ≤ index

def optionalGroups (n : Nat) (messages : List Message) : List (List Nat) :=
  (groupsOf n messages).filter fun group => !isCurrent n group

/-- The system messages, the request, and the groups that share a message with it. -/
def mandatorySet (n : Nat) (messages : List Message) : Finset Nat :=
  ((Finset.range messages.length).filter fun index => isSystem messages index ∨ n ≤ index) ∪
    ((groupsOf n messages).filter (isCurrent n)).flatten.toFinset

/-- The mandatory messages and some optional groups. -/
def keeping (n : Nat) (messages : List Message) (kept : List (List Nat)) : Finset Nat :=
  mandatorySet n messages ∪ kept.flatten.toFinset

/-- The bytes of the messages at some indices, as an array. -/
def bytesAt (messages : List Message) (indices : Finset Nat) : Nat :=
  (arrayBytes (pick messages indices)).length

/-- An exact selection that keeps the optional groups `kept`. -/
structure ExactSelection (maxBytes n : Nat) (messages : List Message) (kept : List (List Nat))
    (sel : ContextSelection) : Prop where
  suffix : kept <:+ optionalGroups n messages
  longest : ∀ other, other <:+ optionalGroups n messages →
    bytesAt messages (keeping n messages other) ≤ maxBytes → other <:+ kept
  selected : sel.messages = pick messages (keeping n messages kept)
  sublist : sel.messages.Sublist messages
  fits : sel.selectedBytes ≤ maxBytes
  selectedBytes : sel.selectedBytes = (arrayBytes sel.messages).length
  inputBytes : sel.inputBytes = (arrayBytes messages).length
  historyMessages : sel.historyMessages = n
  requestMessages : sel.requestMessages = messages.length - n
  omittedMessages : sel.omittedHistoryMessages =
    ((Finset.range n).filter (· ∉ keeping n messages kept)).card
  omittedGroups : sel.omittedHistoryGroups =
    ((optionalGroups n messages).length : Int) - kept.length

-- ---------------------------------------------------------------------------
-- What `select` computes
-- ---------------------------------------------------------------------------

theorem mem_grouped {messages : List Message} {i j : Nat} :
    j ∈ grouped messages i ↔ j < i ∧ isSystem messages j = false := by
  rw [grouped, List.mem_filter, List.mem_range, Bool.not_eq_true']

section Groups

variable {n : Nat} {messages : List Message}

theorem flatten_groupsOf : (groupsOf n messages).flatten = grouped messages messages.length :=
  List.flatten_splitBy _ _

theorem isCurrent_of_mem {group : List Nat} {j : Nat} (hj : j ∈ group) (hn : n ≤ j) :
    isCurrent n group = true := List.any_eq_true.mpr ⟨j, hj, decide_eq_true hn⟩

/-- Every message of a conversation is a system message or belongs to a group. -/
theorem mem_group {j : Nat} (hj : j < messages.length) (hsystem : isSystem messages j = false) :
    ∃ group ∈ groupsOf n messages, j ∈ group := by
  have hmem : j ∈ (groupsOf n messages).flatten := by
    rw [flatten_groupsOf]
    exact mem_grouped.mpr ⟨hj, hsystem⟩
  exact List.mem_flatten.mp hmem

theorem of_mem_group {group : List Nat} {j : Nat} (hgroup : group ∈ groupsOf n messages)
    (hj : j ∈ group) : j < messages.length ∧ isSystem messages j = false := by
  have hmem : j ∈ (groupsOf n messages).flatten := List.mem_flatten.mpr ⟨group, hgroup, hj⟩
  rw [flatten_groupsOf] at hmem
  exact mem_grouped.mp hmem

theorem keeping_lt {kept : List (List Nat)} (hkept : kept ⊆ groupsOf n messages) :
    ∀ j ∈ keeping n messages kept, j < messages.length := by
  intro j hj
  rw [keeping, mandatorySet, Finset.mem_union, Finset.mem_union, Finset.mem_filter,
    Finset.mem_range, List.mem_toFinset, List.mem_toFinset, List.mem_flatten,
    List.mem_flatten] at hj
  rcases hj with (⟨hj, -⟩ | ⟨group, hgroup, hj⟩) | ⟨group, hgroup, hj⟩
  · exact hj
  · exact (of_mem_group (List.mem_filter.mp hgroup).1 hj).1
  · exact (of_mem_group (hkept hgroup) hj).1

theorem optional_subset {kept : List (List Nat)} (hkept : kept <:+ optionalGroups n messages) :
    kept ⊆ groupsOf n messages :=
  fun _ hgroup => (List.mem_filter.mp (hkept.subset hgroup)).1

end Groups

section Select

variable {encode : Encoder} {n : Nat} {messages : List Message} {s : Scan}

/-- The fixed data of a selection, for the lemmas on the loops. -/
def inputOf (encode : Encoder) (maxBytes n : Nat) (messages : List Message) : Input where
  budget := maxBytes
  n := n
  message index := messages.getD index default
  size index := sizeOf encode (messages.getD index default)

/-- The scan after the open group has been closed. -/
theorem exists_closed (h : s.Grouped n messages messages.length) :
    ∃ s' : Scan, s'.Partition messages.length ∧ s'.groups = groupsOf n messages ∧ s'.group = [] ∧
      s'.protected_ = s.protected_ := by
  rw [h.groupsOf_eq]
  by_cases hne : s.group ≠ []
  · rw [if_pos hne]
    exact ⟨s.closed, h.partition.closed hne, rfl, rfl, rfl⟩
  · rw [if_neg hne]
    exact ⟨s, h.partition, rfl, not_not.mp hne, rfl⟩

/-- The protected messages are the system messages. -/
theorem mem_protected (h : s.Grouped n messages messages.length) {j : Nat} :
    j ∈ s.protected_ ↔ j < messages.length ∧ isSystem messages j = true := by
  have hgroups : j ∈ s.groups.flatten ++ s.group ↔
      j < messages.length ∧ isSystem messages j = false := by
    rw [h.indices]
    exact mem_grouped
  constructor
  · intro hj
    have hlt := h.partition.protectedBound j hj
    refine ⟨hlt, ?_⟩
    by_contra hno
    exact h.partition.disjoint j hj (hgroups.mpr ⟨hlt, Bool.eq_false_iff.mpr hno⟩)
  · rintro ⟨hlt, hsystem⟩
    rcases h.partition.cover j hlt with hj | hj
    · exact hj
    · rw [(hgroups.mp hj).2] at hsystem
      cases hsystem

/-- The set that is selected before the filling loop. -/
theorem mandatorySet_eq (h : s.Grouped n messages messages.length) {s' : Scan} {x : Input}
    (hn : x.n = n) (hgroups : s'.groups = groupsOf n messages) (hp : s'.protected_ = s.protected_) :
    mandatorySet n messages = x.requiredSet s' := by
  have hcurrent : x.isMandatory = isCurrent n := by
    funext group
    rw [Input.isMandatory, hn]
    rfl
  rw [mandatorySet, Input.requiredSet, hgroups, hp, hcurrent]
  ext j
  rw [Finset.mem_union, Finset.mem_union, Finset.mem_filter, Finset.mem_range, mem_protected h]
  constructor
  · rintro (⟨hlt, hsystem | hn⟩ | hj)
    · exact Or.inl ⟨hlt, hsystem⟩
    · by_cases hsystem : isSystem messages j = true
      · exact Or.inl ⟨hlt, hsystem⟩
      · obtain ⟨group, hgroup, hj⟩ := mem_group (n := n) hlt (Bool.eq_false_iff.mpr hsystem)
        exact Or.inr (List.mem_toFinset.mpr (List.mem_flatten.mpr
          ⟨group, List.mem_filter.mpr ⟨hgroup, isCurrent_of_mem hj hn⟩, hj⟩))
    · exact Or.inr hj
  · rintro (⟨hlt, hsystem⟩ | hj)
    · exact Or.inl ⟨hlt, Or.inl hsystem⟩
    · exact Or.inr hj

theorem inputOf_sizes (maxBytes : Nat) :
    messages.map (sizeOf encode) =
      (List.range messages.length).map (inputOf encode maxBytes n messages).size := by
  refine List.ext_getElem (by simp) fun k hk _ => ?_
  rw [List.length_map] at hk
  simp only [List.getElem_map, List.getElem_range, inputOf]
  rw [← List.getElem_eq_getD (h := hk) default]

/-- The cost of the messages at some indices. -/
def costAt (encode : Encoder) (messages : List Message) (indices : Finset Nat) : Nat :=
  ∑ index ∈ indices, (sizeOf encode (messages.getD index default) + 1)

/-- What `select` returns when nothing is pending: the mandatory set does not fit, or the longest
suffix of the optional groups is kept. -/
theorem select_eq (h : s.Grouped n messages messages.length)
    (hsizes : s.sizes = messages.map (sizeOf encode)) (hpending : s.pending = ∅) (maxBytes : Nat) :
    (maxBytes < bytesOf (costAt encode messages (mandatorySet n messages)) ∧
      s.select maxBytes n messages = .error budgetExceeded) ∨
    (bytesOf (costAt encode messages (mandatorySet n messages)) ≤ maxBytes ∧
      ∃ kept, kept = keepSuffix (fits maxBytes) (total (inputOf encode maxBytes n messages).cost)
          (costAt encode messages (mandatorySet n messages)) (optionalGroups n messages) ∧
        s.select maxBytes n messages = .ok {
          messages := pick messages (keeping n messages kept)
          inputBytes := bytesOf (costAt encode messages (Finset.range messages.length))
          selectedBytes := bytesOf (costAt encode messages (mandatorySet n messages) +
            total (total (inputOf encode maxBytes n messages).cost) kept)
          historyMessages := n
          requestMessages := messages.length - n
          omittedHistoryMessages :=
            ((Finset.range n).filter (· ∉ keeping n messages kept)).card
          omittedHistoryGroups := ((optionalGroups n messages).length : Int) - kept.length }) := by
  obtain ⟨x, hx⟩ : ∃ x, x = inputOf encode maxBytes n messages := ⟨_, rfl⟩
  have hxn : x.n = n := by rw [hx]; rfl
  have hxbudget : x.budget = maxBytes := by rw [hx]; rfl
  obtain ⟨s', hpartition, hgroups, hgroup, hprotected⟩ := exists_closed h
  have hmandatory : mandatorySet n messages = x.requiredSet s' :=
    mandatorySet_eq h hxn hgroups hprotected
  have hcost (indices : Finset Nat) : costAt encode messages indices = ∑ j ∈ indices, x.cost j := by
    rw [hx]
    rfl
  have hoptional : x.optionalGroups s' = optionalGroups n messages := by
    rw [Input.optionalGroups, hgroups, hx]
    rfl
  have hsizes' : s.sizes = (List.range messages.length).map x.size := by
    rw [hsizes, inputOf_sizes (n := n) maxBytes, hx]
  have hall : (if s.group ≠ [] then s.groups ++ [s.group] else s.groups) = s'.groups := by
    rw [hgroups, h.groupsOf_eq]
  have hselected := selected_eq_requiredSet (x := x) hpartition hgroup
  rw [hprotected, hxn, ← hmandatory] at hselected
  have hbound := requiredSet_bound (x := x) hpartition
  have hbytes : byteCount s.sizes (mandatorySet n messages) =
      bytesOf (costAt encode messages (mandatorySet n messages)) := by
    rw [hcost]
    exact byteCount_eq hsizes' (hmandatory ▸ hbound)
  rw [Scan.select, if_neg (not_not.mpr hpending)]
  simp only [hall, hselected, hbytes]
  by_cases hfits : maxBytes < bytesOf (costAt encode messages (mandatorySet n messages))
  · -- the mandatory part alone is too large
    rw [if_pos hfits]
    exact Or.inl ⟨hfits, rfl⟩
  · -- it fits, and the loop fills up with optional groups
    rw [if_neg hfits]
    refine Or.inr ⟨Nat.le_of_not_lt hfits, ?_⟩
    have hfillable : Fillable messages.length s'.groups :=
      ⟨hpartition.nonempty, fun g hg j hj => hpartition.bound j
        (List.mem_append_left _ (List.mem_flatten.mpr ⟨g, hg, hj⟩))⟩
    have hempty : mandatorySet n messages = ∅ ↔
        costAt encode messages (mandatorySet n messages) = 0 := by
      rw [costAt, Finset.sum_eq_zero_iff, Finset.eq_empty_iff_forall_notMem]
      exact forall_congr' fun j => ⟨fun hno hj => absurd hj hno,
        fun hzero hj => Nat.succ_ne_zero _ (hzero hj)⟩
    have hfill := mem_mandatoryOf (x := x) hpartition
    rw [hprotected, hxn] at hfill
    obtain ⟨kept, hkept, hselected', hbytes', hchosen⟩ := fill_eq hsizes' hfillable hfill
      s'.groups.length (Nat.le_refl _) hempty (fun _ hj => Or.inl hj)
    have hcard := card_mandatoryOf (x := x) hpartition
    rw [hprotected, hxn] at hcard
    rw [hcard] at hchosen
    rw [List.take_length, hxbudget] at hkept
    rw [hxbudget] at hselected' hbytes' hchosen
    have hcount : (s'.groups.length : Int) -
        ((s'.groups.filter x.isMandatory).length + kept.length : Nat) =
          ((optionalGroups n messages).length : Int) - kept.length := by
      have hsplit := List.length_eq_length_filter_add (l := s'.groups) x.isMandatory
      rw [← hoptional, Input.optionalGroups]
      omega
    refine ⟨kept, ?_, ?_⟩
    · rw [hkept, ← hoptional, hx]
      rfl
    · rw [hselected', hbytes', hchosen, hcount, hx,
        byteCount_eq hsizes' (fun j hj => Finset.mem_range.mp hj), ← hcost]
      rfl

end Select

-- ---------------------------------------------------------------------------
-- Exactness
-- ---------------------------------------------------------------------------

section Exact

variable {encode : Encoder} {n : Nat} {messages : List Message} {s : Scan}

theorem pick_eq_map {indices : Finset Nat} (h : ∀ j ∈ indices, j < messages.length) :
    pick messages indices = (indices.sort (· ≤ ·)).map fun j => messages.getD j default := by
  have hlookup : ∀ j ∈ indices.sort (· ≤ ·), messages[j]? = some (messages.getD j default) := by
    intro j hj
    have hlt := h j ((Finset.mem_sort _).mp hj)
    rw [List.getElem?_eq_getElem hlt, ← List.getElem_eq_getD (h := hlt) default]
  rw [pick, List.filterMap_congr hlookup]
  exact congrFun List.filterMap_eq_map' _

theorem pick_range (messages : List Message) :
    pick messages (Finset.range messages.length) = messages := by
  rw [pick_eq_map fun j hj => Finset.mem_range.mp hj, Finset.sort_range]
  refine List.ext_getElem (by simp) fun k hk hk' => ?_
  simp only [List.getElem_map, List.getElem_range]
  exact (List.getElem_eq_getD default).symm

theorem mem_of_mem_pick {indices : Finset Nat} {m : Message} (h : m ∈ pick messages indices) :
    m ∈ messages := by
  obtain ⟨j, -, hj⟩ := List.mem_filterMap.mp h
  exact List.mem_of_getElem? hj

theorem pick_sublist {indices : Finset Nat} (h : ∀ j ∈ indices, j < messages.length) :
    (pick messages indices).Sublist messages := by
  have hsub : (indices.sort (· ≤ ·)).Sublist (List.range messages.length) := by
    refine List.sublist_of_subperm_of_sortedLE ?_ (Finset.sortedLT_sort indices).sortedLE
      (List.sortedLT_range _).sortedLE
    exact (Finset.sort_nodup _ _).subperm fun j hj =>
      List.mem_range.mpr (h j ((Finset.mem_sort _).mp hj))
  have hall := pick_range messages
  rw [pick, Finset.sort_range] at hall
  have hpick := hsub.filterMap fun index => messages[index]?
  rw [hall] at hpick
  exact hpick

/-- The bytes of a selection, from the costs of its messages. -/
theorem bytesAt_eq (hcanonical : CanonicalEncoder encode)
    (hencode : ∀ m ∈ messages, hasEncoding encode m)
    {indices : Finset Nat} (h : ∀ j ∈ indices, j < messages.length) :
    bytesAt messages indices = bytesOf (costAt encode messages indices) := by
  have hsum : total (fun m => sizeOf encode m + 1) (pick messages indices) =
      costAt encode messages indices := by
    rw [pick_eq_map h, total_map, total, costAt,
      ← List.sum_toFinset _ (Finset.sort_nodup indices (· ≤ ·)), Finset.sort_toFinset]
  rw [bytesAt, length_arrayBytes hcanonical fun m hm => hencode m (mem_of_mem_pick hm), hsum]

/-- Optional groups cost what they cost beside the mandatory messages. -/
theorem costAt_keeping (h : s.Grouped n messages messages.length) (encode : Encoder)
    (maxBytes : Nat) {kept : List (List Nat)} (hkept : kept <:+ optionalGroups n messages) :
    costAt encode messages (keeping n messages kept) =
      costAt encode messages (mandatorySet n messages) +
        total (total (inputOf encode maxBytes n messages).cost) kept := by
  obtain ⟨x, hx⟩ : ∃ x, x = inputOf encode maxBytes n messages := ⟨_, rfl⟩
  obtain ⟨s', hpartition, hgroups, -, hprotected⟩ := exists_closed h
  have hmandatory : mandatorySet n messages = x.requiredSet s' :=
    mandatorySet_eq h (by rw [hx]; rfl) hgroups hprotected
  have hoptional : x.optionalGroups s' = optionalGroups n messages := by
    rw [Input.optionalGroups, hgroups, hx]
    rfl
  rw [← hoptional] at hkept
  obtain ⟨hnodup, hdisjoint, -⟩ := kept_disjoint hpartition hkept
  rw [← hmandatory] at hdisjoint
  rw [keeping, costAt, Finset.sum_union hdisjoint, List.sum_toFinset _ hnodup, ← hx,
    ← total_flatten, hx]
  rfl

/-- What `select` returns is an exact selection. -/
theorem exact_of_select {maxBytes : Nat} {sel : ContextSelection}
    (h : s.Grouped n messages messages.length)
    (hcanonical : CanonicalEncoder encode) (hencode : ∀ m ∈ messages, hasEncoding encode m)
    (hsizes : s.sizes = messages.map (sizeOf encode)) (hpending : s.pending = ∅)
    (hsel : s.select maxBytes n messages = .ok sel) :
    ∃ kept, ExactSelection maxBytes n messages kept sel := by
  rcases select_eq h hsizes hpending maxBytes with ⟨-, herror⟩ | ⟨hmandatory, kept, hkept, hok⟩
  · rw [hsel] at herror
    cases herror
  · rw [hsel] at hok
    obtain rfl := Except.ok.inj hok
    have hsuffix : kept <:+ optionalGroups n messages := by
      rw [hkept]
      exact keepSuffix_suffix _ _ _ _
    have hbytes {other : List (List Nat)} (hother : other <:+ optionalGroups n messages) :
        bytesAt messages (keeping n messages other) =
          bytesOf (costAt encode messages (mandatorySet n messages) +
            total (total (inputOf encode maxBytes n messages).cost) other) := by
      rw [bytesAt_eq hcanonical hencode (keeping_lt (optional_subset hother)),
        costAt_keeping h _ maxBytes hother]
    have hfits : bytesOf (costAt encode messages (mandatorySet n messages) +
        total (total (inputOf encode maxBytes n messages).cost) kept) ≤ maxBytes := by
      by_cases hnil : kept = []
      · rw [hnil, total_nil, Nat.add_zero]
        exact hmandatory
      · rw [hkept] at hnil ⊢
        exact of_decide_eq_true (keepSuffix_fits hnil)
    refine ⟨kept, hsuffix, fun other hother hle => ?_, rfl,
      pick_sublist (keeping_lt (optional_subset hsuffix)), hfits, (hbytes hsuffix).symm, ?_, rfl,
      rfl, rfl, rfl⟩
    · rw [hbytes hother] at hle
      rw [hkept]
      exact suffix_keepSuffix hother (decide_eq_true hle)
    · rw [← bytesAt_eq hcanonical hencode fun j hj => Finset.mem_range.mp hj, bytesAt, pick_range]

end Exact

-- ---------------------------------------------------------------------------
-- When a selection succeeds
-- ---------------------------------------------------------------------------

section Calls

variable {encode : Encoder} {history current : List Message}

/-- The loop of a selection that ends. -/
theorem loop_of_select {n : Nat} {messages : List Message} {s : Scan}
    (h : Scan.start.loop encode n 0 messages = .ok s) :
    (∀ m ∈ messages, hasEncoding encode m) ∧ s.Grouped n messages messages.length ∧
      s.sizes = messages.map (sizeOf encode) :=
  loop_grouped (Scan.Grouped.start n messages) (Nat.zero_le _) rfl rfl h

theorem pending_eq_empty {n : Nat} {messages : List Message} {s : Scan}
    (h : s.Grouped n messages messages.length) : s.pending = ∅ ↔ WellFormed messages := by
  have hscan := h.pending
  rw [List.take_length] at hscan
  rw [WellFormed, Exchange.wellFormed_iff, hscan, Option.some.injEq]

/-- Messages with encodings and exchanges in place are selected from, unless the budget is
exceeded. -/
theorem select_of_wellFormed (window : ContextWindow)
    (hencode : ∀ m ∈ history ++ current, hasEncoding encode m)
    (hwell : WellFormed (history ++ current)) :
    (window.maxBytes < bytesOf (costAt encode (history ++ current)
        (mandatorySet history.length (history ++ current))) ∧
      window.select encode history current = .error budgetExceeded) ∨
    (bytesOf (costAt encode (history ++ current)
        (mandatorySet history.length (history ++ current))) ≤ window.maxBytes ∧
      ∃ sel, window.select encode history current = .ok sel) := by
  have hscan := (Exchange.wellFormed_iff _).mp hwell
  obtain ⟨s, hloop⟩ := loop_succeeds (Scan.Grouped.start history.length (history ++ current))
    List.drop_zero hencode hscan
  obtain ⟨-, hgrouped, hsizes⟩ := loop_of_select hloop
  have hselect : window.select encode history current =
      s.select window.maxBytes history.length (history ++ current) := by
    rw [ContextWindow.select]
    simp only [hloop]
  rw [hselect]
  rcases select_eq hgrouped hsizes ((pending_eq_empty hgrouped).mpr hwell) window.maxBytes with
    h | ⟨hle, kept, -, hok⟩
  · exact Or.inl h
  · exact Or.inr ⟨hle, _, hok⟩

/-- A selection that ends has messages with encodings and exchanges in place. -/
theorem wellFormed_of_select {window : ContextWindow} {r : Except Exn ContextSelection}
    (hr : window.select encode history current = r)
    (hend : (∃ sel, r = .ok sel) ∨ r = .error budgetExceeded)
    (hraises : ∀ m e, encode m = .error e → e ≠ budgetExceeded) :
    ∃ s : Scan, s.Grouped history.length (history ++ current) (history ++ current).length ∧
      (∀ m ∈ history ++ current, hasEncoding encode m) ∧
        s.sizes = (history ++ current).map (sizeOf encode) ∧ s.pending = ∅ ∧
          s.select window.maxBytes history.length (history ++ current) = r := by
  rw [ContextWindow.select] at hr
  cases hloop : Scan.start.loop encode history.length 0 (history ++ current) with
  | error e =>
    exfalso
    simp only [hloop] at hr
    subst hr
    rcases hend with ⟨sel, hsel⟩ | hbudget
    · cases hsel
    · rcases loop_error hloop with ⟨m, -, he⟩ | rfl | rfl
      · exact hraises m e he (Except.error.inj hbudget)
      · cases hbudget
      · cases hbudget
  | ok s =>
    simp only [hloop] at hr
    obtain ⟨hencode, hgrouped, hsizes⟩ := loop_of_select hloop
    refine ⟨s, hgrouped, hencode, hsizes, ?_, hr⟩
    by_contra hpending
    rw [Scan.select, if_pos hpending] at hr
    subst hr
    rcases hend with ⟨sel, hsel⟩ | hbudget
    · cases hsel
    · cases hbudget

theorem mandatorySet_lt {n : Nat} {messages : List Message} :
    ∀ j ∈ mandatorySet n messages, j < messages.length := by
  intro j hj
  exact keeping_lt (List.nil_subset _) j (Finset.mem_union_left _ hj)

/-- Whatever is selected is exact. -/
theorem exactSelection_of_select (hcanonical : CanonicalEncoder encode) {window : ContextWindow}
    {sel : ContextSelection} (hsel : window.select encode history current = .ok sel) :
    ∃ kept, ExactSelection window.maxBytes history.length (history ++ current) kept sel := by
  obtain ⟨s, hgrouped, hencode, hsizes, hpending, hselect⟩ :=
    wellFormed_of_select hsel (Or.inl ⟨sel, rfl⟩) hcanonical.ne_budgetExceeded
  exact exact_of_select hgrouped hcanonical hencode hsizes hpending hselect

/-- A selection is exact, and the budget is exceeded exactly when every message has a canonical
encoding, the exchanges are well formed and the mandatory part alone does not fit. `hcanonical` is
what the encoder of the source promises. Both halves read the loop back as a grouping of the whole
conversation (`wellFormed_of_select`); then `select_eq` says what is computed from it, and
`bytesAt_eq` that the numbers it compares are lengths of JSON arrays. -/
theorem select_exact (hcanonical : CanonicalEncoder encode) (window : ContextWindow)
    (history current : List Message) :
    (∀ sel, window.select encode history current = .ok sel →
      ∃ kept, ExactSelection window.maxBytes history.length (history ++ current) kept sel) ∧
    (window.select encode history current = .error budgetExceeded ↔
      (∀ m ∈ history ++ current, hasEncoding encode m) ∧
        WellFormed (history ++ current) ∧
          window.maxBytes < bytesAt (history ++ current)
            (mandatorySet history.length (history ++ current))) := by
  constructor
  · exact fun sel hsel => exactSelection_of_select hcanonical hsel
  · constructor
    · intro herror
      obtain ⟨s, hgrouped, hencode, hsizes, hpending, hselect⟩ :=
        wellFormed_of_select herror (Or.inr rfl) hcanonical.ne_budgetExceeded
      refine ⟨hencode, (pending_eq_empty hgrouped).mp hpending, ?_⟩
      rw [bytesAt_eq hcanonical hencode mandatorySet_lt]
      rcases select_eq hgrouped hsizes hpending window.maxBytes with ⟨hlt, -⟩ | ⟨-, kept, -, hok⟩
      · exact hlt
      · rw [hselect] at hok
        cases hok
    · rintro ⟨hencode, hwell, hlt⟩
      rw [bytesAt_eq hcanonical hencode mandatorySet_lt] at hlt
      rcases select_of_wellFormed window hencode hwell with ⟨-, herror⟩ | ⟨hle, -⟩
      · exact herror
      · omega

end Calls

namespace Sample

def callMessage (arguments : List (PyKey × PyValue))
    (h : (PyValue.dict arguments).isJson = true) : Message where
  id := 1
  role := .assistant
  content := [.toolCall ⟨[97], [97], arguments, isStrField_a, isToolName_a, h⟩]
  size := one_part
  validContent := rfl

def resultMessage (result : PyValue) (h : result.isJson = true) : Message where
  id := 2
  role := .tool
  content := [.toolResult ⟨[97], result, isStrField_a, h⟩]
  size := one_part
  validContent := rfl

/-- A result that is one surrogate: lossless JSON, but not UTF-8. -/
def surrogate : PyValue := .str [0xD800]

def surrogateHistory : List Message :=
  [callMessage [] isJson_empty, resultMessage surrogate rfl]

def nowRequest : List Message := [.user 3 default]

end Sample

set_option maxRecDepth 8000 in
theorem unencodable_history : ¬∀ (window : ContextWindow) (history current : List Message),
    window.select Message.canonicalBytes history current = .error budgetExceeded ↔
      WellFormed (history ++ current) ∧ window.maxBytes < bytesAt (history ++ current)
        (mandatorySet history.length (history ++ current)) := by
  intro h
  have hselect : ContextWindow.select ⟨2, by decide⟩ Message.canonicalBytes Sample.surrogateHistory
      Sample.nowRequest = .error (.py .valueError
        "'utf-8' codec can't encode character: surrogates not allowed") := rfl
  have hmandatory : mandatorySet 2 (Sample.surrogateHistory ++ Sample.nowRequest) = {2} := by decide
  have hbudget := (h ⟨2, by decide⟩ Sample.surrogateHistory Sample.nowRequest).mpr ⟨by decide, by
    show 2 < bytesAt _ (mandatorySet 2 _)
    rw [hmandatory, bytesAt, pick, Finset.sort_singleton]
    decide⟩
  rw [hselect] at hbudget
  cases hbudget

-- ---------------------------------------------------------------------------
-- Exchanges stay whole
-- ---------------------------------------------------------------------------

section Stable

variable {encode : Encoder} {n : Nat} {messages : List Message}

/-- System messages have no exchanges. -/
theorem events_filter (indices : List Nat) :
    toolEvents (indices.filterMap fun index => messages[index]?) =
      eventsAt messages (indices.filter fun index => !isSystem messages index) := by
  induction indices with
  | nil => rfl
  | cons j indices ih =>
    have hcons (js : List Nat) : eventsAt messages (j :: js) =
        toolEvents messages[j]?.toList ++ eventsAt messages js := by
      rw [eventsAt, List.filterMap_cons]
      cases messages[j]? with
      | none => rfl
      | some m =>
        show toolEvents ([m] ++ _) = _
        rw [toolEvents_append]
        rfl
    have hevents : eventsAt messages (j :: indices) =
        toolEvents messages[j]?.toList ++
          eventsAt messages (indices.filter fun index => !isSystem messages index) := by
      rw [hcons, ← ih]
      rfl
    refine hevents.trans ?_
    by_cases hsystem : isSystem messages j = true
    · rw [List.filter_cons_of_neg (by rw [hsystem]; exact Bool.false_ne_true)]
      cases hm : messages[j]? with
      | none => rfl
      | some m =>
        rw [isSystem, hm] at hsystem
        have hnone : toolEvents [m] = [] := by
          show m.content.filterMap ContentPart.exchange ++ [] = []
          rw [system_exchange (of_decide_eq_true hsystem), List.append_nil]
        rw [Option.toList_some, hnone, List.nil_append]
    · rw [List.filter_cons_of_pos (by rw [Bool.eq_false_iff.mpr hsystem]; rfl), hcons]

theorem eventsAt_flatten (groups : List (List Nat)) :
    eventsAt messages groups.flatten = (groups.map (eventsAt messages)).flatten := by
  induction groups with
  | nil => rfl
  | cons g groups ih =>
    rw [List.flatten_cons, eventsAt_append, ih, List.map_cons, List.flatten_cons]

/-- What is kept beside system messages is made of whole groups. -/
theorem keeping_groups {kept : List (List Nat)} (hkept : kept <:+ optionalGroups n messages) :
    ((keeping n messages kept).sort (· ≤ ·)).filter (fun index => !isSystem messages index) =
      ((groupsOf n messages).filter fun group =>
        isCurrent n group || kept.contains group).flatten := by
  obtain ⟨chosen, hchosen⟩ : ∃ chosen, chosen =
    (groupsOf n messages).filter fun group => isCurrent n group || kept.contains group := ⟨_, rfl⟩
  have hmem (group : List Nat) : group ∈ chosen ↔ group ∈ groupsOf n messages ∧
      (isCurrent n group = true ∨ group ∈ kept) := by
    rw [hchosen, List.mem_filter, Bool.or_eq_true, List.contains_iff_mem]
  have hsub : chosen.flatten.Sublist (grouped messages messages.length) := by
    rw [← flatten_groupsOf (n := n), hchosen]
    exact List.filter_sublist.flatten
  have hsorted : chosen.flatten.Pairwise (· < ·) :=
    (List.pairwise_lt_range.filter _).sublist hsub
  have hleft : ((keeping n messages kept).sort (· ≤ ·)).Pairwise (· < ·) :=
    (Finset.sortedLT_sort _).pairwise
  rw [← hchosen]
  refine List.Perm.eq_of_pairwise (fun a b _ _ hab hba => absurd hab (Nat.lt_asymm hba))
    (hleft.filter _) hsorted ((List.perm_ext_iff_of_nodup ((Finset.sort_nodup _ _).filter _)
      (hsorted.imp Nat.ne_of_lt)).mpr fun j => ?_)
  rw [List.mem_filter, Finset.mem_sort, Bool.not_eq_true', List.mem_flatten, keeping, mandatorySet,
    Finset.mem_union, Finset.mem_union, Finset.mem_filter, Finset.mem_range, List.mem_toFinset,
    List.mem_toFinset, List.mem_flatten, List.mem_flatten]
  constructor
  · rintro ⟨(⟨hlt, hsystem | hn⟩ | ⟨group, hgroup, hj⟩) | ⟨group, hgroup, hj⟩, hno⟩
    · rw [hno] at hsystem
      cases hsystem
    · obtain ⟨group, hgroup, hj⟩ := mem_group (n := n) hlt hno
      exact ⟨group, (hmem group).mpr ⟨hgroup, Or.inl (isCurrent_of_mem hj hn)⟩, hj⟩
    · obtain ⟨hgroup, hcurrent⟩ := List.mem_filter.mp hgroup
      exact ⟨group, (hmem group).mpr ⟨hgroup, Or.inl hcurrent⟩, hj⟩
    · exact ⟨group, (hmem group).mpr ⟨optional_subset hkept hgroup, Or.inr hgroup⟩, hj⟩
  · rintro ⟨group, hgroup, hj⟩
    obtain ⟨hmemGroup, hcurrent | hin⟩ := (hmem group).mp hgroup
    · exact ⟨Or.inl (Or.inr ⟨group, List.mem_filter.mpr ⟨hmemGroup, hcurrent⟩, hj⟩),
        (of_mem_group hmemGroup hj).2⟩
    · exact ⟨Or.inr ⟨group, hin, hj⟩, (of_mem_group hmemGroup hj).2⟩

/-- Whole groups of a well-formed conversation are a well-formed conversation. -/
theorem wellFormed_pick {s : Scan} (h : s.Grouped n messages messages.length)
    (hpending : s.pending = ∅) {kept : List (List Nat)}
    (hkept : kept <:+ optionalGroups n messages) :
    WellFormed (pick messages (keeping n messages kept)) := by
  rw [WellFormed, pick, events_filter, keeping_groups hkept, eventsAt_flatten]
  refine Exchange.WellFormed.flatten fun es hes => ?_
  obtain ⟨group, hgroup, rfl⟩ := List.mem_map.mp hes
  exact h.wellFormed_group hpending group (List.mem_filter.mp hgroup).1

/-- A selection that contains the request ends with it. -/
theorem pick_append {history current : List Message} {indices : Finset Nat}
    (hlt : ∀ j ∈ indices, j < (history ++ current).length)
    (hall : ∀ j, history.length ≤ j → j < (history ++ current).length → j ∈ indices) :
    pick (history ++ current) indices =
      pick history (indices.filter (· < history.length)) ++ current := by
  have hsplit : indices.sort (· ≤ ·) = (indices.filter (· < history.length)).sort (· ≤ ·) ++
      List.range' history.length current.length := by
    have hleft : (indices.sort (· ≤ ·)).Pairwise (· < ·) := (Finset.sortedLT_sort _).pairwise
    have hright : ((indices.filter (· < history.length)).sort (· ≤ ·) ++
        List.range' history.length current.length).Pairwise (· < ·) := by
      refine List.pairwise_append.mpr
        ⟨(Finset.sortedLT_sort _).pairwise, List.pairwise_lt_range', ?_⟩
      intro a ha b hb
      have ha' := (Finset.mem_filter.mp ((Finset.mem_sort _).mp ha)).2
      exact Nat.lt_of_lt_of_le ha' (List.mem_range'_1.mp hb).1
    refine List.Perm.eq_of_pairwise (fun a b _ _ hab hba => absurd hab (Nat.lt_asymm hba)) hleft
      hright ((List.perm_ext_iff_of_nodup (hleft.imp Nat.ne_of_lt)
        (hright.imp Nat.ne_of_lt)).mpr fun j => ?_)
    rw [List.mem_append, Finset.mem_sort, Finset.mem_sort, Finset.mem_filter, List.mem_range'_1]
    constructor
    · intro hj
      have hbound := hlt j hj
      rw [List.length_append] at hbound
      by_cases hn : j < history.length
      · exact Or.inl ⟨hj, hn⟩
      · exact Or.inr ⟨Nat.le_of_not_lt hn, hbound⟩
    · rintro (⟨hj, -⟩ | ⟨hn, hbound⟩)
      · exact hj
      · refine hall j hn ?_
        rw [List.length_append]
        exact hbound
  rw [pick, hsplit, List.filterMap_append, pick]
  congr 1
  · refine List.filterMap_congr fun j hj => ?_
    exact List.getElem?_append_left (Finset.mem_filter.mp ((Finset.mem_sort _).mp hj)).2
  · have hcurrent : (List.range' history.length current.length).filterMap
        (fun index => (history ++ current)[index]?) =
          (List.range current.length).filterMap fun index => current[index]? := by
      rw [List.range'_eq_map_range, List.filterMap_map]
      refine List.filterMap_congr fun k _ => ?_
      show (history ++ current)[history.length + k]? = current[k]?
      rw [List.getElem?_append_right (Nat.le_add_right _ _), Nat.add_sub_cancel_left]
    have hrange := pick_range current
    rw [pick, Finset.sort_range] at hrange
    rw [hcurrent, hrange]

theorem costAt_mono (encode : Encoder) {as bs : Finset Nat} (h : as ⊆ bs) :
    costAt encode messages as ≤ costAt encode messages bs :=
  Finset.sum_le_sum_of_subset h

theorem bytesOf_mono {a b : Nat} (h : a ≤ b) : bytesOf a ≤ bytesOf b := by
  rw [bytesOf, bytesOf]
  split
  · split
    · exact Nat.le_refl 2
    · omega
  · split
    · omega
    · omega

/-- Where everything fits, everything is selected. -/
theorem select_all (hcanonical : CanonicalEncoder encode) (window : ContextWindow)
    {history current : List Message}
    (hencode : ∀ m ∈ history ++ current, hasEncoding encode m)
    (hwell : WellFormed (history ++ current))
    (hfits : (arrayBytes (history ++ current)).length ≤ window.maxBytes) :
    ∃ sel, window.select encode history current = .ok sel ∧
      sel.messages = history ++ current ∧ sel.omittedHistoryMessages = 0 ∧
        sel.omittedHistoryGroups = 0 := by
  have hrange : ∀ j ∈ Finset.range (history ++ current).length, j < (history ++ current).length :=
    fun j hj => Finset.mem_range.mp hj
  rw [← pick_range (history ++ current)] at hfits
  have hall : bytesOf (costAt encode (history ++ current)
      (Finset.range (history ++ current).length)) ≤ window.maxBytes := by
    rw [← bytesAt_eq hcanonical hencode hrange]
    exact hfits
  have hle {indices : Finset Nat} (h : ∀ j ∈ indices, j < (history ++ current).length) :
      bytesOf (costAt encode (history ++ current) indices) ≤ window.maxBytes :=
    (bytesOf_mono (costAt_mono _ fun j hj => Finset.mem_range.mpr (h j hj))).trans hall
  rcases select_of_wellFormed window hencode hwell with ⟨hlt, -⟩ | ⟨-, sel, hsel⟩
  · exact absurd (hle mandatorySet_lt) (Nat.not_le_of_lt hlt)
  · obtain ⟨kept, hexact⟩ := exactSelection_of_select hcanonical hsel
    have hsubset := optional_subset
      (List.suffix_refl (optionalGroups history.length (history ++ current)))
    have hkept : kept = optionalGroups history.length (history ++ current) := by
      refine (hexact.suffix.sublist.antisymm (List.IsSuffix.sublist ?_))
      refine hexact.longest _ List.suffix_rfl ?_
      rw [bytesAt_eq hcanonical hencode (keeping_lt hsubset)]
      exact hle (keeping_lt hsubset)
    have heverything : keeping history.length (history ++ current) kept =
        Finset.range (history ++ current).length := by
      ext j
      rw [Finset.mem_range]
      refine ⟨fun hj => keeping_lt (optional_subset hexact.suffix) j hj, fun hj => ?_⟩
      rw [keeping, mandatorySet, Finset.mem_union, Finset.mem_union, Finset.mem_filter,
        Finset.mem_range]
      by_cases hsystem : isSystem (history ++ current) j = true
      · exact Or.inl (Or.inl ⟨hj, Or.inl hsystem⟩)
      · obtain ⟨group, hgroup, hmem⟩ := mem_group (n := history.length) hj
          (Bool.eq_false_iff.mpr hsystem)
        by_cases hcurrent : isCurrent history.length group = true
        · exact Or.inl (Or.inr (List.mem_toFinset.mpr (List.mem_flatten.mpr
            ⟨group, List.mem_filter.mpr ⟨hgroup, hcurrent⟩, hmem⟩)))
        · refine Or.inr (List.mem_toFinset.mpr (List.mem_flatten.mpr ⟨group, ?_, hmem⟩))
          rw [hkept, optionalGroups, List.mem_filter, Bool.eq_false_iff.mpr hcurrent]
          exact ⟨hgroup, rfl⟩
    refine ⟨sel, hsel, ?_, ?_, ?_⟩
    · rw [hexact.selected, heverything, pick_range]
    · rw [hexact.omittedMessages, heverything, List.length_append]
      have hnone : (Finset.range history.length).filter
          (· ∉ Finset.range (history.length + current.length)) = ∅ := by
        refine Finset.filter_eq_empty_iff.mpr fun j hj => ?_
        rw [not_not, Finset.mem_range]
        exact Nat.lt_add_right _ (Finset.mem_range.mp hj)
      rw [hnone]
      rfl
    · rw [hexact.omittedGroups, hkept]
      omega

/-- A selection breaks no exchange, and a second selection from its history keeps all of it. The
kept part is a sublist of the history, made of whole groups; `select_all` selects everything from
it, since the array that has to fit is the one that was measured before. -/
theorem select_stable (hcanonical : CanonicalEncoder encode) {window : ContextWindow}
    {history current : List Message} {sel : ContextSelection}
    (hsel : window.select encode history current = .ok sel) :
    WellFormed sel.messages ∧ ∃ kept, sel.messages = kept ++ current ∧ kept.Sublist history ∧
      ∃ again, window.select encode kept current = .ok again ∧
        again.messages = sel.messages ∧ again.omittedHistoryMessages = 0 ∧
          again.omittedHistoryGroups = 0 := by
  obtain ⟨s, hgrouped, hencode, hsizes, hpending, hselect⟩ :=
    wellFormed_of_select hsel (Or.inl ⟨sel, rfl⟩) hcanonical.ne_budgetExceeded
  obtain ⟨groups, hexact⟩ :=
    exact_of_select hgrouped hcanonical hencode hsizes hpending hselect
  have hlt := keeping_lt (optional_subset hexact.suffix)
  have hwell : WellFormed sel.messages := by
    rw [hexact.selected]
    exact wellFormed_pick hgrouped hpending hexact.suffix
  have hcurrent : ∀ j, history.length ≤ j → j < (history ++ current).length →
      j ∈ keeping history.length (history ++ current) groups := fun j hn hj =>
    Finset.mem_union_left _ (Finset.mem_union_left _
      (Finset.mem_filter.mpr ⟨Finset.mem_range.mpr hj, Or.inr hn⟩))
  have hsplit := hexact.selected.trans (pick_append hlt hcurrent)
  obtain ⟨kept, hkept⟩ : ∃ kept, kept = pick history
    ((keeping history.length (history ++ current) groups).filter (· < history.length)) := ⟨_, rfl⟩
  rw [← hkept] at hsplit
  have hsublist : kept.Sublist history := by
    rw [hkept]
    exact pick_sublist fun j hj => (Finset.mem_filter.mp hj).2
  rw [hsplit] at hwell
  have hfits : (arrayBytes (kept ++ current)).length ≤ window.maxBytes := by
    rw [← hsplit, ← hexact.selectedBytes]
    exact hexact.fits
  have hencode' : ∀ m ∈ kept ++ current, hasEncoding encode m := fun m hm =>
    hencode m ((hsublist.append_right current).subset hm)
  obtain ⟨again, hagain, hsame, hmessages, hgroups⟩ :=
    select_all hcanonical window hencode' hwell hfits
  rw [hsplit]
  exact ⟨hwell, kept, rfl, hsublist, again, hagain, hsame, hmessages, hgroups⟩

end Stable

/-! ## A budget that leaves an exchange out -/

namespace Sample

def spokenMessage (id : Uuid) (role : Role) (h : validToolContent role [.text default] = true) :
    Message where
  id := id
  role := role
  content := [.text default]
  size := one_part
  validContent := h

/-- A note of the system, a turn with a tool exchange, and a turn without one. -/
def twoTurns : List Message :=
  [spokenMessage 7 .system rfl, .user 4 default, callMessage [] isJson_empty,
    resultMessage .none isJson_none, .user 5 default, spokenMessage 6 .assistant rfl]

/-- The bytes of the note, the second turn and the request, but not of the first turn. -/
def narrowWindow : ContextWindow := ⟨500, by decide⟩

theorem narrow_select :
    (narrowWindow.select Message.canonicalBytes twoTurns nowRequest).toOption.map
        (fun sel => (sel.selectedBytes, sel.omittedHistoryMessages, sel.omittedHistoryGroups)) =
      some (404, 3, 1) := by decide +kernel

theorem exists_narrow : ∃ sel, narrowWindow.select Message.canonicalBytes twoTurns nowRequest =
    .ok sel ∧ sel.selectedBytes = 404 ∧ sel.omittedHistoryMessages = 3 ∧
      sel.omittedHistoryGroups = 1 := by
  have hselect := narrow_select
  cases hsel : narrowWindow.select Message.canonicalBytes twoTurns nowRequest with
  | error e =>
    rw [hsel] at hselect
    cases hselect
  | ok sel =>
    rw [hsel] at hselect
    have hfields := Option.some.inj hselect
    exact ⟨sel, rfl, congrArg Prod.fst hfields, congrArg (·.2.1) hfields,
      congrArg (·.2.2) hfields⟩

theorem narrow_encodings : ∀ m ∈ twoTurns ++ nowRequest,
    hasEncoding Message.canonicalBytes m := by
  have hall : ((twoTurns ++ nowRequest).all fun m => m.canonicalBytes.toBool) = true := by
    decide +kernel
  intro m hm
  have hm' := List.all_eq_true.mp hall m hm
  cases hencode : m.canonicalBytes with
  | error e =>
    rw [hencode] at hm'
    cases hm'
  | ok bytes => exact ⟨bytes, hencode⟩

end Sample

/-- The budget of `narrowWindow` omits the turn with the exchange; half of it is exceeded by the
note and the request. -/
theorem Sample.narrow_exact :
    (∃ sel kept, narrowWindow.select Message.canonicalBytes twoTurns nowRequest = .ok sel ∧
      ExactSelection 500 6 (twoTurns ++ nowRequest) kept sel ∧ sel.selectedBytes = 404 ∧
        sel.omittedHistoryMessages = 3 ∧ sel.omittedHistoryGroups = 1) ∧
    ContextWindow.select ⟨200, by decide⟩ Message.canonicalBytes twoTurns nowRequest =
      .error budgetExceeded := by
  constructor
  · obtain ⟨sel, hsel, hbytes, hmessages, hgroups⟩ := exists_narrow
    obtain ⟨kept, hexact⟩ := (select_exact canonicalEncoder_canonicalBytes narrowWindow twoTurns
      nowRequest).1 sel hsel
    exact ⟨sel, kept, hsel, hexact, hbytes, hmessages, hgroups⟩
  · have hlarge : 200 < bytesAt (twoTurns ++ nowRequest)
        (mandatorySet 6 (twoTurns ++ nowRequest)) := by
      rw [bytesAt_eq canonicalEncoder_canonicalBytes narrow_encodings mandatorySet_lt]
      decide +kernel
    exact (select_exact canonicalEncoder_canonicalBytes ⟨200, by decide⟩ twoTurns nowRequest).2.mpr
      ⟨narrow_encodings, by decide, hlarge⟩

/-- What is kept of the two turns is selected again. -/
theorem Sample.narrow_stable : ∃ sel : ContextSelection, sel.omittedHistoryGroups = 1 ∧
    WellFormed sel.messages ∧ ∃ kept, sel.messages = kept ++ nowRequest ∧ kept.Sublist twoTurns ∧
      ∃ again, narrowWindow.select Message.canonicalBytes kept nowRequest = .ok again ∧
        again.messages = sel.messages ∧ again.omittedHistoryMessages = 0 ∧
          again.omittedHistoryGroups = 0 := by
  obtain ⟨sel, hsel, -, -, hgroups⟩ := exists_narrow
  exact ⟨sel, hgroups, select_stable canonicalEncoder_canonicalBytes hsel⟩

end AgentRuntimeKit
