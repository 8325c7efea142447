import PageSync.Proofs.Pieces

/-!
# Documents that are cut off

A stream with limited room may get further calls after one of them has failed. Whatever calls it gets,
it keeps the longest beginning, of whole characters, of the document that a stream without a limit gets
by the same calls (`Xml.truncated_of_calls`): nothing is left out before something that is kept, and the
header is not written again.
-/

namespace PageSync

namespace Xml

/-- A call on a stream. -/
inductive Call
  /-- An operation is sent. -/
  | operation (op : Operation)
  /-- There are no more operations. -/
  | finish

namespace Call

/-- What the sink does at a call. -/
def step : Call → EStateM WriteError Stream Unit
  | operation op => sink.operation op
  | finish => sink.finish

/-- What is written at a call, apart from the header. -/
def text : Call → List Char
  | operation op => Xml.operation op
  | finish => footer

end Call

/-- Makes calls on a stream one after the other, also when some fail, and tells which of them succeed. -/
def Stream.calls : Stream → List Call → List Bool × Stream
  | stream, [] => ([], stream)
  | stream, call :: rest =>
    match call.step stream with
    | .ok () stream =>
      let (outcomes, stream) := stream.calls rest
      (true :: outcomes, stream)
    | .error _ stream =>
      let (outcomes, stream) := stream.calls rest
      (false :: outcomes, stream)

/-- Whether a text is the longest beginning of another one that takes no more than so many bytes. -/
structure IsLongest (room : Nat) (kept text : List Char) : Prop where
  /-- It is a beginning. -/
  isPrefix : kept <+: text
  /-- It takes no more than that. -/
  byteSize_le : byteSize kept ≤ room
  /-- No other beginning that takes no more than that is longer. -/
  isPrefix_of_le : ∀ other, other <+: text → byteSize other ≤ room → other <+: kept

variable {text more : List Char} {room j k : Nat} {call : Call} {calls before rest : List Call}

lemma isLongest_fitting (room : Nat) (text : List Char) : IsLongest room (fitting room text) text where
  isPrefix := fitting_isPrefix room text
  byteSize_le := byteSize_fitting_le room text
  isPrefix_of_le _ hother hsize := isPrefix_fitting hother hsize

/-! ### One call -/

lemma Call.step_eq (call : Call) : call.step = Stream.put call.text := by
  cases call with
  | operation op => exact operation_sink op
  | finish => exact finish_sink

/-- At each call something is written. -/
lemma Call.text_ne_nil (call : Call) : call.text ≠ [] := by
  match call with
  | .operation (.delete node) => exact List.cons_ne_nil _ _
  | .operation (.insertAfter _ none _) => exact List.cons_ne_nil _ _
  | .operation (.insertAfter _ (some _) _) => exact List.cons_ne_nil _ _
  | .operation (.replaceChildren _ _) => exact List.cons_ne_nil _ _
  | .operation (.changeAttributes _ _) => exact List.cons_ne_nil _ _
  | .finish => exact List.cons_ne_nil _ _

lemma byteSize_pos (h : text ≠ []) : 0 < byteSize text := by
  obtain ⟨c, rest, rfl⟩ := List.exists_cons_of_ne_nil h
  have hc := c.utf8Size_pos
  rw [byteSize_cons]
  omega

/-- The writer with so much room after a text was written, as far as it fits. -/
def Writer.after (room : Nat) (text : List Char) : Writer :=
  ⟨some (room - byteSize text), fitting room text⟩

/-- After a text was written, another one is written as if both were written together: it is cut off
where both together are. -/
lemma Writer.put_after (h : more ≠ []) : put more (after room text) =
    if byteSize (text ++ more) ≤ room then .ok () (after room (text ++ more))
    else .error .noRoom (after room (text ++ more)) := by
  have hpos := byteSize_pos h
  rw [after, after, byteSize_append]
  by_cases hfirst : byteSize text ≤ room
  · rw [fitting_eq_self_iff.2 hfirst, fitting_append_of_le hfirst]
    split
    · rw [put_of_le (by omega), fitting_eq_self_iff.2 (by omega), Nat.sub_sub]
    · rw [put_of_lt (by omega), Nat.sub_eq_zero_of_le (by omega : room ≤ byteSize text + byteSize more)]
  · -- the first text was too long already, so that there is no room for anything
    have hnone : fitting 0 more = [] := by
      by_contra hsome
      have hsize := byteSize_pos hsome
      have hle := byteSize_fitting_le 0 more
      omega
    rw [if_neg (by omega), Nat.sub_eq_zero_of_le (by omega : room ≤ byteSize text),
      Nat.sub_eq_zero_of_le (by omega : room ≤ byteSize text + byteSize more), put_of_lt hpos, hnone,
      List.append_nil, fitting_append_of_lt (by omega)]

/-! ### Several calls -/

/-- The text of some calls, behind the header. -/
def written (calls : List Call) : List Char :=
  if calls = [] then [] else header ++ calls.flatMap Call.text

/-- The header comes with the text of the first call. -/
lemma written_concat (before : List Call) (call : Call) : written (before ++ [call]) =
    written before ++ if !before.isEmpty then call.text else header ++ call.text := by
  cases before with
  | nil => simp [written]
  | cons first rest => simp [written]

lemma byteSize_written_le (h : before <+: calls) :
    byteSize (written before) ≤ byteSize (written calls) := by
  obtain ⟨rest, rfl⟩ := h
  cases before with
  | nil => exact Nat.zero_le _
  | cons first others =>
    simp only [written, List.cons_append, reduceCtorEq, if_false, List.flatMap_cons,
      List.flatMap_append, byteSize_append]
    omega

namespace Stream

/-- A stream without a limit after some calls. -/
def whole (before : List Call) : Stream := ⟨⟨none, written before⟩, !before.isEmpty⟩

/-- A stream with so much room after some calls. -/
def limited (room : Nat) (before : List Call) : Stream :=
  ⟨Writer.after room (written before), !before.isEmpty⟩

lemma step_whole (before : List Call) (call : Call) :
    call.step (whole before) = .ok () (whole (before ++ [call])) := by
  have hnext : whole (before ++ [call]) = ⟨⟨none, written (before ++ [call])⟩, true⟩ := by
    rw [whole]
    simp
  rw [Call.step_eq, hnext, written_concat]
  exact put_of_ok (Writer.put_of_unlimited _ _)

/-- A call succeeds exactly if all that has been written up to its end fits. -/
lemma step_limited (room : Nat) (before : List Call) (call : Call) :
    call.step (limited room before) =
      if byteSize (written (before ++ [call])) ≤ room then .ok () (limited room (before ++ [call]))
      else .error .noRoom (limited room (before ++ [call])) := by
  have hnext : limited room (before ++ [call]) =
      ⟨Writer.after room (written (before ++ [call])), true⟩ := by
    rw [limited]
    simp
  have hput : Writer.put (if !before.isEmpty then call.text else header ++ call.text)
      (Writer.after room (written before)) =
        if byteSize (written (before ++ [call])) ≤ room then
          .ok () (Writer.after room (written (before ++ [call])))
        else .error .noRoom (Writer.after room (written (before ++ [call]))) := by
    rw [written_concat]
    apply Writer.put_after
    split
    · exact call.text_ne_nil
    · exact List.append_ne_nil_of_right_ne_nil _ call.text_ne_nil
  rw [Call.step_eq, hnext]
  by_cases hfits : byteSize (written (before ++ [call])) ≤ room
  · rw [if_pos hfits] at hput ⊢
    exact put_of_ok hput
  · rw [if_neg hfits] at hput ⊢
    exact put_of_error hput

/-! ### Many calls -/

/-- Without a limit all calls succeed. -/
lemma calls_whole (before rest : List Call) :
    (whole before).calls rest = (rest.map fun _ => true, whole (before ++ rest)) := by
  induction rest generalizing before with
  | nil => rw [calls, List.append_nil, List.map_nil]
  | cons call rest ih =>
    rw [calls, step_whole]
    dsimp only
    rw [ih, List.append_assoc, List.singleton_append, List.map_cons]

/-- With a limit those calls succeed up to whose end all fits. -/
lemma calls_limited (room : Nat) (before rest : List Call) : (limited room before).calls rest =
    ((List.range rest.length).map fun k =>
        decide (byteSize (written (before ++ rest.take (k + 1))) ≤ room),
      limited room (before ++ rest)) := by
  induction rest generalizing before with
  | nil => rw [calls, List.append_nil]; rfl
  | cons call rest ih =>
    have htake (k : Nat) : before ++ (call :: rest).take (k + 1) =
        before ++ [call] ++ rest.take k := by
      rw [List.take_succ_cons, List.append_assoc, List.singleton_append]
    have hall : before ++ call :: rest = before ++ [call] ++ rest := by
      rw [List.append_assoc, List.singleton_append]
    simp only [htake, hall]
    rw [calls, step_limited, List.length_cons, List.range_succ_eq_map, List.map_cons, List.map_map,
      List.take_zero, List.append_nil]
    by_cases hfits : byteSize (written (before ++ [call])) ≤ room
    · rw [if_pos hfits]
      dsimp only
      rw [ih, decide_eq_true hfits]
      rfl
    · rw [if_neg hfits]
      dsimp only
      rw [ih, decide_eq_false hfits]
      rfl

end Stream

/-! ### Streams with a limit -/

/-- What a stream without a limit gets by some calls. -/
def unlimited (calls : List Call) : List Char := (Stream.calls {} calls).2.writer.text

lemma calls_unlimited (calls : List Call) :
    Stream.calls {} calls = (calls.map fun _ => true, Stream.whole calls) :=
  Stream.calls_whole [] calls

lemma unlimited_eq (calls : List Call) : unlimited calls = written calls := by
  rw [unlimited, calls_unlimited, Stream.whole]

/-- A call on a stream with a limit succeeds if the document up to its end fits. -/
lemma getElem?_calls (room : Nat) (hk : k < calls.length) :
    ((Stream.limited room []).calls calls).1[k]? =
      some (decide (byteSize (written (calls.take (k + 1))) ≤ room)) := by
  rw [Stream.calls_limited, List.getElem?_map, List.getElem?_range hk]
  rfl

/-- After a call that failed no call succeeds. -/
lemma getElem?_calls_of_failed (hjk : j ≤ k) (hk : k < calls.length)
    (hfailed : ((Stream.limited room []).calls calls).1[j]? = some false) :
    ((Stream.limited room []).calls calls).1[k]? = some false := by
  rw [getElem?_calls room (Nat.lt_of_le_of_lt hjk hk), Option.some_inj, decide_eq_false_iff_not,
    Nat.not_le] at hfailed
  rw [getElem?_calls room hk, Option.some_inj, decide_eq_false_iff_not, Nat.not_le]
  have hgrows := byteSize_written_le
    (List.take_prefix_take_left (Nat.succ_le_succ hjk) : calls.take (j + 1) <+: _)
  exact Nat.lt_of_lt_of_le hfailed hgrows

/-- Without a limit all calls succeed, and the document is the header and then what the calls stand for.
With room for so many bytes, a stream keeps the longest beginning of that document that fits, and a call
succeeds exactly if the document up to its end fits; hence all calls after one that fails do fail too. -/
theorem truncated_of_calls (room : Nat) (calls : List Call) :
    (Stream.calls {} calls).1 = calls.map (fun _ => true) ∧
    unlimited calls = (if calls = [] then [] else header ++ calls.flatMap Call.text) ∧
    let run := Stream.calls { writer := { room := some room } } calls
    IsLongest room run.2.writer.text (unlimited calls) ∧
    run.1.length = calls.length ∧
    (∀ k < calls.length,
      run.1[k]? = some (decide (byteSize (unlimited (calls.take (k + 1))) ≤ room))) ∧
    ∀ j k, j ≤ k → k < calls.length → run.1[j]? = some false → run.1[k]? = some false := by
  have hempty : ({ writer := { room := some room } } : Stream) = Stream.limited room [] := rfl
  simp only [unlimited_eq]
  refine ⟨congrArg Prod.fst (calls_unlimited calls), rfl, ?_⟩
  rw [hempty]
  refine ⟨?_, ?_, fun k hk => getElem?_calls room hk, ?_⟩
  · rw [Stream.calls_limited]
    exact isLongest_fitting room (written calls)
  · rw [Stream.calls_limited, List.length_map, List.length_range]
  · intro j k hjk hk hfailed
    exact getElem?_calls_of_failed hjk hk hfailed

/-- A character of two bytes that has room for only one of them is left out, and so is all that
follows. -/
example : Stream.calls { writer := { room := some 71 } }
    [.operation (.insertAfter ⟨1⟩ none (.leaf ⟨2⟩ "é" .empty)), .finish] =
      ([false, false], ⟨⟨some 0, header ++ "<prepend select=\"#n1\"><".toList⟩, true⟩) := by
  decide +kernel

end Xml

end PageSync
