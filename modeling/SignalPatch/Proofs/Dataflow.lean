import SignalPatch.Proofs.SingleAssignment

/-!
# Dataflow terms

A buffer of a program holds a term: the operation of the instruction that writes it, applied to the
terms of the buffers that this instruction reads. In single-assignment code the term of each
instruction is made of terms of the same code (`SingleAssignment.dataflow_eq`), so code that is
added later does not change it.
-/

namespace SignalPatch

open Lowering

/-! ## Terms -/

inductive Content where
  | values (vs : List Float)
  | samples (names : List String)

/-- A pattern as the machine plays it, with times in beats. -/
structure Track where
  cycleLength : Float
  times : List Float
  content : Content
  velocities : List Float

inductive Term where
  | const (bits : UInt32)
  | pattern (track : Track)
  /-- The value that the host has under the fingerprint of a name, with a value to fall back on. -/
  | hostParam (name : UInt32) (fallback : Term)
  | op (opcode : Opcode) (args : List Term)

def SequenceInit.track (s : SequenceInit) : Track where
  cycleLength := s.cycleLength
  times := s.times
  content :=
    match s.kind with
    | .values => .values s.values
    | .samples => .samples s.sampleNames
  velocities := s.velocities

def Instruction.term (sequences : List SequenceInit) (value : Buffer → Option Term)
    (ins : Instruction) : Option Term :=
  match ins.opcode with
  | .pushConst => some (.const ins.payload)
  | .seqStep => sequences[ins.payload.toNat]?.map fun s => .pattern s.track
  | .envGet => (ins.inputs.used.head?.bind value).map (.hostParam ins.payload)
  | opcode => (ins.inputs.used.mapM value).map (.op opcode)

/-- The term of a buffer in code whose last instruction comes first. -/
def unfolded (sequences : List SequenceInit) : List Instruction → Buffer → Option Term
  | [], _ => none
  | ins :: earlier, b =>
    if ins.out = b then ins.term sequences (unfolded sequences earlier)
    else unfolded sequences earlier b

def dataflow (sequences : List SequenceInit) (is : List Instruction) (b : Buffer) : Option Term :=
  unfolded sequences is.reverse b

/-! ## Unfolding single-assignment code -/

theorem mapM_congr [Monad m] [LawfulMonad m] {f g : α → m β} {xs : List α}
    (h : ∀ x ∈ xs, f x = g x) :
    xs.mapM f = xs.mapM g := by
  induction xs with
  | nil => rfl
  | cons x xs ih =>
    rw [List.mapM_cons, List.mapM_cons, h x (by simp),
      ih fun y hy => h y (List.mem_cons_of_mem _ hy)]

theorem Instruction.term_congr {ins : Instruction} {value value' : Buffer → Option Term}
    (sequences : List SequenceInit) (h : ∀ b ∈ ins.inputs.used, value b = value' b) :
    ins.term sequences value = ins.term sequences value' := by
  have hhead : ins.inputs.used.head?.bind value = ins.inputs.used.head?.bind value' := by
    cases hused : ins.inputs.used with
    | nil => rfl
    | cons b bs => exact h b (by simp [hused])
  unfold term
  rw [hhead, mapM_congr h]

theorem unfolded_append (sequences : List SequenceInit) {later : List Instruction}
    (h : ∀ ins ∈ later, ins.out ≠ b) (earlier : List Instruction) :
    unfolded sequences (later ++ earlier) b = unfolded sequences earlier b := by
  induction later with
  | nil => rfl
  | cons ins later ih =>
    rw [List.cons_append, unfolded, if_neg (h ins (by simp)),
      ih fun ins' h' => h ins' (List.mem_cons_of_mem _ h')]

theorem dataflow_snoc (sequences : List SequenceInit) (is : List Instruction) (ins : Instruction) :
    dataflow sequences (is ++ [ins]) ins.out = ins.term sequences (dataflow sequences is) := by
  unfold dataflow
  rw [List.reverse_append, List.reverse_singleton, List.singleton_append, unfolded,
    if_pos rfl]

namespace SingleAssignment

theorem dataflow_take (h : SingleAssignment is) (sequences : List SequenceInit) {b : Buffer}
    (hb : b.toNat < k) : dataflow sequences is b = dataflow sequences (is.take k) b := by
  unfold dataflow
  conv_lhs => rw [← List.take_append_drop k is, List.reverse_append]
  refine unfolded_append sequences (fun ins hins => ?_) _
  obtain ⟨j, hj⟩ := List.mem_iff_getElem?.mp (List.mem_reverse.mp hins)
  rw [List.getElem?_drop] at hj
  rintro rfl
  have := (h _ ins hj).out
  omega

theorem dataflow_eq {k : Nat} (h : SingleAssignment is) (sequences : List SequenceInit)
    (hk : is[k]? = some ins) :
    dataflow sequences is ins.out = ins.term sequences (dataflow sequences is) := by
  have hassigns := h k ins hk
  have hout : ins.out.toNat < k + 1 := Nat.lt_succ_of_le (Nat.le_of_eq hassigns.out)
  rw [h.dataflow_take sequences hout, List.take_add_one, hk, Option.toList_some, dataflow_snoc]
  exact Instruction.term_congr sequences fun b hb =>
    (h.dataflow_take sequences (hassigns.earlier b hb)).symm

theorem lt_length (h : SingleAssignment is) (hb : dataflow sequences is b = some t) :
    b.toNat < is.length := by
  have hwritten : ∃ ins ∈ is.reverse, ins.out = b := by
    by_contra hne
    push Not at hne
    have := unfolded_append sequences hne []
    rw [List.append_nil] at this
    cases hb.symm.trans this
  obtain ⟨ins, hins, rfl⟩ := hwritten
  obtain ⟨k, hk⟩ := List.mem_iff_getElem?.mp (List.mem_reverse.mp hins)
  rw [(h k ins hk).out]
  exact (List.getElem?_eq_some_iff.mp hk).1

end SingleAssignment

end SignalPatch
