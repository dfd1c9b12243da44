import AgentRuntimeKit.Lib.Gen
import AgentRuntimeKit.Lib.Utf8
import AgentRuntimeKit.Model.Errors
import Mathlib.Data.List.DropRight

/-!
# Server-sent events

`sse_data` of `models_clients/_http.py`: the data fields of a bounded event stream, decoded from the
chunks in which a response arrives. A chunk may end anywhere, in a character or in a line ending,
and may be empty.

The function keeps three things from chunk to chunk: the bytes after the last line feed, the data
fields of the current event with its size, and the size of the response so far. A line is decoded
when its line feed has come, without the carriage returns at its end. The function raises on a line
that is no UTF-8, on an event beyond `maxEventBytes`, and on a response beyond `maxResponseBytes`.

The one assumption is that the response is within the last limit. It is counted in whole chunks,
before they are decoded, so a response beyond it does show how it was cut: what the chunks before
have completed is yielded.

The limit of an event is checked at each line and at the end of each chunk, so a cut adds checks.
They change nothing: an unfinished line that is too large makes the finished one too large as well
(`sseBuffer_tooLarge`), and a check in between yields nothing. So feeding `a` and then `b` is
feeding `a ++ b` (`sseChunk_append`), and an induction folds the chunks into one.

## Results

* `sseChunk_append` — two chunks might as well be one, in a bounded response.
* `sseData_flatten` — all of them might.
* `sseData_chunks`  — two ways of cutting the same bytes decode alike.
-/

namespace AgentRuntimeKit

open Lib Utf8

def maxResponseBytes : Nat := 8 * 1024 * 1024

def maxEventBytes : Nat := 256 * 1024

/-- `b"\n"`. -/
def lf : Byte := 10

/-- `b"\r"`. -/
def cr : Byte := 13

def responseTooLarge : Exn := .kit (.provider false) "Provider stream exceeded the size limit"

def eventTooLarge : Exn := .kit (.provider false) "Provider stream event exceeded the size limit"

/-- `bytes.decode("utf-8")`, whose failure is a `ValueError`. -/
def decodeUtf8 (bytes : List Byte) : Except Exn PyStr :=
  (decode bytes).mapError fun e => .py .unicodeDecodeError e.message

/-- `str.startswith("data:")`. -/
def dataField : PyStr := PyStr.ofString "data:"

/-- `value[1:] if value.startswith(" ") else value`. -/
def stripSpace : PyStr → PyStr
  | 32 :: value => value
  | value => value

/-- `"\n".join(fields)`. -/
def joinLines (fields : List PyStr) : PyStr := [codePoint 10].intercalate fields

/-- What `sse_data` keeps of the current event. -/
structure SseEvent where
  fields : List PyStr
  eventBytes : Nat

def SseEvent.start : SseEvent := ⟨[], 0⟩

/-- What the loop body of `sse_data` does with a decoded line. -/
def sseText (fields : List PyStr) (eventBytes : Nat) (line : PyStr) : Gen Exn PyStr SseEvent :=
  if line = [] then do
    if fields ≠ [] then .yield (joinLines fields)
    pure .start
  else if dataField.isPrefixOf line then
    pure ⟨fields ++ [stripSpace (line.drop 5)], eventBytes⟩
  else pure ⟨fields, eventBytes⟩

/-- The loop body of `sse_data`, for one complete line. -/
def sseLine (s : SseEvent) (rawLine : List Byte) : Gen Exn PyStr SseEvent := do
  let eventBytes := s.eventBytes + rawLine.length + 1
  if maxEventBytes < eventBytes then .raise eventTooLarge
  else do
    let line ← .ofExcept (decodeUtf8 (rawLine.rdropWhile (· = cr)))
    sseText s.fields eventBytes line

/-- The complete lines of the buffer, without their `b"\n"`, and what is left. -/
def splitLines : List Byte → List (List Byte) × List Byte
  | [] => ([], [])
  | b :: bytes =>
    match splitLines bytes with
    | (lines, rest) =>
      if b = lf then ([] :: lines, rest)
      else
        match lines with
        | [] => ([], b :: rest)
        | line :: lines => ((b :: line) :: lines, rest)

structure SseState where
  buffer : List Byte
  event : SseEvent
  total : Nat

def SseState.start : SseState := ⟨[], .start, 0⟩

/-- The loop of `sse_data`, for one chunk. -/
def sseChunk (s : SseState) (chunk : List Byte) : Gen Exn PyStr SseState := do
  let total := s.total + chunk.length
  if maxResponseBytes < total then .raise responseTooLarge
  else
    match splitLines (s.buffer ++ chunk) with
    | (lines, rest) => do
      let event ← lines.foldlM sseLine s.event
      if maxEventBytes < event.eventBytes + rest.length then .raise eventTooLarge
      else pure ⟨rest, event, total⟩

/-- `sse_data`. -/
def sseData (chunks : List (List Byte)) : Gen Exn PyStr Unit := do
  let _ ← chunks.foldlM sseChunk .start
  pure ()

-- ---------------------------------------------------------------------------
-- Lines across chunks
-- ---------------------------------------------------------------------------

theorem splitLines_lf (bytes : List Byte) :
    splitLines (lf :: bytes) = ([] :: (splitLines bytes).1, (splitLines bytes).2) := by
  simp only [splitLines, if_true]

theorem splitLines_of_ne {b : Byte} (hb : b ≠ lf) (bytes : List Byte) :
    splitLines (b :: bytes) =
      match (splitLines bytes).1 with
      | [] => ([], b :: (splitLines bytes).2)
      | line :: lines => ((b :: line) :: lines, (splitLines bytes).2) := by
  simp only [splitLines, if_neg hb]

/-- What is left is no complete line. -/
theorem lf_notMem_splitLines (bytes : List Byte) : lf ∉ (splitLines bytes).2 := by
  induction bytes with
  | nil => exact List.not_mem_nil
  | cons b bytes ih =>
    by_cases hb : b = lf
    · rw [hb, splitLines_lf]
      exact ih
    · rw [splitLines_of_ne hb]
      split
      · intro hmem
        rcases List.mem_cons.mp hmem with heq | hmem
        · exact hb heq.symm
        · exact ih hmem
      · exact ih

/-- Bytes without a line ending go to the front of the next line. -/
theorem splitLines_append_of_notMem {bytes : List Byte} (h : lf ∉ bytes) (more : List Byte) :
    splitLines (bytes ++ more) =
      match (splitLines more).1 with
      | [] => ([], bytes ++ (splitLines more).2)
      | line :: lines => ((bytes ++ line) :: lines, (splitLines more).2) := by
  induction bytes with
  | nil =>
    rw [List.nil_append]
    rcases hsplit : splitLines more with ⟨lines, rest⟩
    cases lines <;> rfl
  | cons b bytes ih =>
    have hb : b ≠ lf := fun heq => h (heq ▸ List.mem_cons_self)
    have hbytes : lf ∉ bytes := fun hmem => h (List.mem_cons_of_mem _ hmem)
    rw [List.cons_append, splitLines_of_ne hb, ih hbytes]
    cases (splitLines more).1 <;> rfl

/-- Lines that end in the first part stay what they are. -/
theorem splitLines_append (bytes more : List Byte) :
    splitLines (bytes ++ more) =
      ((splitLines bytes).1 ++ (splitLines ((splitLines bytes).2 ++ more)).1,
        (splitLines ((splitLines bytes).2 ++ more)).2) := by
  induction bytes with
  | nil => rfl
  | cons b bytes ih =>
    by_cases hb : b = lf
    · rw [hb, List.cons_append, splitLines_lf, splitLines_lf, ih]
      rfl
    · rw [List.cons_append, splitLines_of_ne hb, splitLines_of_ne hb, ih]
      cases hlines : (splitLines bytes).1 with
      | cons line lines => rfl
      | nil =>
        rw [List.cons_append, splitLines_of_ne hb]
        rfl

-- ---------------------------------------------------------------------------
-- Chunks
-- ---------------------------------------------------------------------------

/-- What `sse_data` does with the complete lines and the rest of a buffer. -/
def sseBuffer (event : SseEvent) (total : Nat) (split : List (List Byte) × List Byte) :
    Gen Exn PyStr SseState := do
  let event ← split.1.foldlM sseLine event
  if maxEventBytes < event.eventBytes + split.2.length then .raise eventTooLarge
  else pure ⟨split.2, event, total⟩

theorem sseChunk_eq {s : SseState} {chunk : List Byte}
    (h : s.total + chunk.length ≤ maxResponseBytes) :
    sseChunk s chunk = sseBuffer s.event (s.total + chunk.length)
    (splitLines (s.buffer ++ chunk)) := by
  unfold sseChunk sseBuffer
  rw [if_neg (Nat.not_lt.mpr h)]

/-- A line that is too long already stays too long. -/
theorem sseLine_tooLarge {event : SseEvent} {bytes more : List Byte}
    (h : maxEventBytes < event.eventBytes + bytes.length) :
    sseLine event (bytes ++ more) = .raise eventTooLarge := by
  have hlong : maxEventBytes < event.eventBytes + (bytes ++ more).length + 1 := by
    rw [List.length_append]
    omega
  unfold sseLine
  exact if_pos hlong

/-- The check at the end of a chunk finds nothing that the next chunk would not find. -/
theorem sseBuffer_tooLarge {event : SseEvent} {total : Nat} {bytes more : List Byte}
    (hbytes : lf ∉ bytes) (h : maxEventBytes < event.eventBytes + bytes.length) :
    sseBuffer event total (splitLines (bytes ++ more)) = .raise eventTooLarge := by
  rw [splitLines_append_of_notMem hbytes]
  unfold sseBuffer
  cases (splitLines more).1 with
  | nil =>
    have hlong : maxEventBytes < event.eventBytes + (bytes ++ (splitLines more).2).length := by
      rw [List.length_append]
      omega
    show (if _ then _ else _) = _
    exact if_pos hlong
  | cons line lines =>
    show sseLine event (bytes ++ line) >>= _ >>= _ = _
    rw [sseLine_tooLarge h]
    rfl

/-- Two chunks might as well be one. -/
theorem sseChunk_append {s : SseState} {chunk more : List Byte}
    (h : s.total + (chunk ++ more).length ≤ maxResponseBytes) :
    (sseChunk s chunk >>= fun s' => sseChunk s' more) = sseChunk s (chunk ++ more) := by
  rw [List.length_append] at h
  rw [sseChunk_eq (by omega), sseChunk_eq (by rw [List.length_append]; omega), ← List.append_assoc,
    splitLines_append (s.buffer ++ chunk)]
  have hrest := lf_notMem_splitLines (s.buffer ++ chunk)
  generalize splitLines (s.buffer ++ chunk) = split at hrest ⊢
  -- past the complete lines of the first chunk
  have hgoes : ∀ event : SseEvent,
      ((if maxEventBytes < event.eventBytes + split.2.length then .raise eventTooLarge
        else pure ⟨split.2, event, s.total + chunk.length⟩) >>= fun s' => sseChunk s' more) =
      sseBuffer event (s.total + (chunk ++ more).length) (splitLines (split.2 ++ more)) := by
    intro event
    split
    · next hlong => exact (sseBuffer_tooLarge hrest hlong).symm
    · show sseChunk ⟨split.2, event, s.total + chunk.length⟩ more = _
      rw [sseChunk_eq (show s.total + chunk.length + more.length ≤ _ by omega), List.length_append,
        Nat.add_assoc]
  calc
    _ = split.1.foldlM sseLine s.event >>= fun event =>
          sseBuffer event (s.total + (chunk ++ more).length) (splitLines (split.2 ++ more)) := by
      rw [sseBuffer, bind_assoc]
      exact congrArg _ (funext hgoes)
    _ = _ := by
      unfold sseBuffer
      rw [List.foldlM_append, bind_assoc]

/-- The chunks of a bounded response might as well be one. -/
theorem foldlM_sseChunk {s : SseState} {chunk : List Byte} {chunks : List (List Byte)}
    (h : s.total + (chunk :: chunks).flatten.length ≤ maxResponseBytes) :
    (chunk :: chunks).foldlM sseChunk s = sseChunk s (chunk :: chunks).flatten := by
  induction chunks generalizing chunk with
  | nil =>
    rw [List.flatten_cons, List.flatten_nil, List.append_nil, List.foldlM_cons]
    exact bind_pure _
  | cons next chunks ih =>
    have hflat : (chunk :: next :: chunks).flatten = ((chunk ++ next) :: chunks).flatten := by
      simp only [List.flatten_cons, List.append_assoc]
    rw [hflat] at h ⊢
    have hboth : s.total + (chunk ++ next).length ≤ maxResponseBytes := by
      rw [List.flatten_cons, List.length_append] at h
      omega
    rw [← ih h]
    simp only [List.foldlM_cons]
    rw [← bind_assoc, sseChunk_append hboth]

theorem sseData_flatten {chunks : List (List Byte)}
    (h : chunks.flatten.length ≤ maxResponseBytes) : sseData chunks = sseData [chunks.flatten] := by
  unfold sseData
  cases chunks with
  | nil => rfl
  | cons chunk chunks =>
    have htotal : SseState.start.total + (chunk :: chunks).flatten.length ≤ maxResponseBytes := by
      rw [show SseState.start.total = 0 from rfl, Nat.zero_add]
      exact h
    rw [foldlM_sseChunk htotal, List.foldlM_cons]
    exact congrArg (· >>= _) (bind_pure _).symm

/-- **Decoding does not depend on the chunks**: neither what is yielded nor how it ends, on any
bytes, valid or not, and any two ways of cutting them. -/
theorem sseData_chunks {chunks chunks' : List (List Byte)}
    (hsame : chunks.flatten = chunks'.flatten)
    (h : chunks.flatten.length ≤ maxResponseBytes) : sseData chunks = sseData chunks' := by
  rw [sseData_flatten h, hsame]
  exact (sseData_flatten (hsame ▸ h)).symm

/-- A character and a line ending, each cut in two. -/
theorem sseData_chunks_split : sseData [[100, 97, 116, 97, 58, 0xC3], [], [0xA9, 13], [10, 10]] =
    sseData [[100, 97, 116, 97, 58, 0xC3, 0xA9, 13, 10, 10]] :=
  sseData_chunks rfl (by decide)

end AgentRuntimeKit
