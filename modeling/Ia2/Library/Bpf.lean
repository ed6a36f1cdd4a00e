import Mathlib.Tactic.Common

/-!
# Classic BPF filters

A filter is a list of instructions over one accumulator whose jumps go forward only. It reads 32-bit
words of its input and returns a verdict. A filter that passes the check of `Checked` returns one
for every input; chains of comparisons with the accumulator are an association list from numbers to
verdicts.
-/

namespace Bpf

/-- The instructions `BPF_LD | BPF_W | BPF_ABS`, `BPF_JMP | BPF_JEQ | BPF_K` and `BPF_RET | BPF_K`.
-/
inductive Insn where
  | ld (offset : Nat)
  | jeq (k : UInt32) (jt jf : Nat)
  | ret (k : UInt32)
deriving DecidableEq, Repr

/-- Run the filter from its instruction number `skip` on; nothing if it runs off the end. -/
def exec (word : Nat → UInt32) : List Insn → Nat → UInt32 → Option UInt32
  | [], _, _ => none
  | _ :: prog, skip + 1, acc => exec word prog skip acc
  | .ld offset :: prog, 0, _ => exec word prog 0 (word offset)
  | .jeq k jt jf :: prog, 0, acc => exec word prog (if acc = k then jt else jf) acc
  | .ret k :: _, 0, _ => some k

def run (prog : List Insn) (word : Nat → UInt32) : Option UInt32 := exec word prog 0 0

/-- What is asked of a filter over an input of `size` bytes before it is run: it reads words of the
input only, jumps to instructions of its own, and its last instruction returns. -/
def Checked (size : Nat) : List Insn → Prop
  | [] => False
  | .ld offset :: prog => offset % 4 = 0 ∧ offset < size ∧ Checked size prog
  | .jeq _ jt jf :: prog => jt < prog.length ∧ jf < prog.length ∧ Checked size prog
  | .ret _ :: prog => prog = [] ∨ Checked size prog

instance Checked.decidable (size : Nat) : (prog : List Insn) → Decidable (Checked size prog)
  | [] => inferInstanceAs (Decidable False)
  | .ld _ :: prog => have := decidable size prog; inferInstanceAs (Decidable (_ ∧ _ ∧ _))
  | .jeq _ _ _ :: prog => have := decidable size prog; inferInstanceAs (Decidable (_ ∧ _ ∧ _))
  | .ret _ :: prog => have := decidable size prog; inferInstanceAs (Decidable (_ ∨ _))

section Exec

variable {size : Nat} {prog : List Insn}

theorem Checked.length_pos (h : Checked size prog) : 0 < prog.length := by
  cases prog with
  | nil => exact h.elim
  | cons i prog => exact Nat.zero_lt_succ _

theorem Checked.exec_isSome (h : Checked size prog) (word : Nat → UInt32) {skip : Nat}
    (hskip : skip < prog.length) (acc : UInt32) :
    ∃ k, exec word prog skip acc = some k := by
  induction prog generalizing skip acc with
  | nil => exact h.elim
  | cons i prog ih =>
    cases skip with
    | succ skip =>
      have hrest : skip < prog.length := Nat.lt_of_succ_lt_succ hskip
      cases i with
      | ld offset => exact ih h.2.2 hrest acc
      | jeq k jt jf => exact ih h.2.2 hrest acc
      | ret k =>
        obtain rfl | h := h
        · exact absurd hrest (Nat.not_lt_zero _)
        · exact ih h hrest acc
    | zero =>
      cases i with
      | ld offset => exact ih h.2.2 h.2.2.length_pos _
      | jeq k jt jf =>
        obtain ⟨hjt, hjf, h⟩ := h
        apply ih h
        split
        · exact hjt
        · exact hjf
      | ret k => exact ⟨k, rfl⟩

theorem Checked.run_isSome (h : Checked size prog) (word : Nat → UInt32) :
    (run prog word).isSome := by
  obtain ⟨k, hk⟩ := h.exec_isSome word h.length_pos 0
  rw [run, hk]
  rfl

end Exec

/-- Return the verdict if the accumulator is the number. -/
def policy (rule : UInt32 × UInt32) : List Insn := [.jeq rule.1 0 1, .ret rule.2]

section Policies

variable {word : Nat → UInt32} {size : Nat} {rest : List Insn} {acc : UInt32}

theorem exec_policies (rules : List (UInt32 × UInt32)) :
    exec word (rules.flatMap policy ++ rest) 0 acc =
      (rules.lookup acc).or (exec word rest 0 acc) := by
  induction rules with
  | nil => rfl
  | cons rule rules ih =>
    obtain ⟨k, verdict⟩ := rule
    by_cases hk : acc = k
    · subst hk
      simp [policy, exec]
    · have hbeq : (acc == k) = false := beq_eq_false_iff_ne.mpr hk
      simp only [List.flatMap_cons, policy, List.cons_append, List.nil_append, exec, if_neg hk,
        List.lookup_cons, hbeq]
      exact ih

theorem checked_policies (rules : List (UInt32 × UInt32)) (h : Checked size rest) :
    Checked size (rules.flatMap policy ++ rest) := by
  have hrest := h.length_pos
  induction rules with
  | nil => exact h
  | cons rule rules ih =>
    simp only [List.flatMap_cons, policy, List.cons_append, List.nil_append]
    refine ⟨Nat.zero_lt_succ _, ?_, .inr ih⟩
    simp only [List.length_cons, List.length_append]
    omega

end Policies

end Bpf
