import Mathlib.Tactic

namespace StackMachine

/-- A processor as push, pop and ret see it: 64-bit registers, a stack pointer, an
instruction pointer and memory in words. Every access is to an aligned word. -/
structure Cpu (R : Type*) where
  reg : R → BitVec 64
  sp : BitVec 64
  ip : BitVec 64
  mem : BitVec 64 → BitVec 64

variable {R : Type*}

def store (a v : BitVec 64) (c : Cpu R) : Cpu R := { c with mem := Function.update c.mem a v }

def pushWord (v : BitVec 64) (c : Cpu R) : Cpu R :=
  { c with sp := c.sp - 8, mem := Function.update c.mem (c.sp - 8) v }

def push (r : R) (c : Cpu R) : Cpu R := pushWord (c.reg r) c

def ret (c : Cpu R) : Cpu R := { c with ip := c.mem c.sp, sp := c.sp + 8 }

def pushAll (rs : List R) (c : Cpu R) : Cpu R := rs.foldl (fun c r => push r c) c

/-- The word `j` places up from the stack pointer. -/
def word (c : Cpu R) (j : Nat) : BitVec 64 := c.mem (c.sp + BitVec.ofNat 64 (8*j))

theorem pushAll_snoc (rs : List R) (r : R) (c : Cpu R) :
    pushAll (rs++[r]) c = push r (pushAll rs c) := by
  simp [pushAll]

theorem pushAll_reg (rs : List R) (c : Cpu R) : (pushAll rs c).reg = c.reg := by
  induction rs using List.reverseRecOn with
  | nil => rfl
  | append_singleton rs r ih => rw [pushAll_snoc]; exact ih

theorem pushAll_sp (rs : List R) (c : Cpu R) :
    (pushAll rs c).sp = c.sp - BitVec.ofNat 64 (8*rs.length) := by
  induction rs using List.reverseRecOn with
  | nil => simp [pushAll]
  | append_singleton rs r ih =>
    rw [pushAll_snoc]
    change (pushAll rs c).sp - 8 = _
    rw [ih, List.length_append, List.length_singleton]
    bv_omega

/-- Pushing writes only the words between the new stack pointer and the old. -/
theorem pushAll_mem (rs : List R) (c : Cpu R) (a : BitVec 64)
    (h : ∀ j < rs.length, a ≠ c.sp - BitVec.ofNat 64 (8*(j+1))) :
    (pushAll rs c).mem a = c.mem a := by
  induction rs using List.reverseRecOn with
  | nil => rfl
  | append_singleton rs r ih =>
    rw [List.length_append, List.length_singleton] at h
    have ha := h rs.length (by omega)
    rw [pushAll_snoc]
    change Function.update (pushAll rs c).mem ((pushAll rs c).sp - 8) _ a = _
    rw [pushAll_sp, Function.update_of_ne, ih fun j hj => h j (by omega)]
    intro he
    apply ha
    rw [he]
    bv_omega

/-- The stack after a row of pushes, from the top: the last one pushed comes first. -/
theorem pushAll_word (rs : List R) (c : Cpu R) (j : Nat) (hj : j < rs.length)
    (hn : rs.length < 2^60) :
    word (pushAll rs c) j = c.reg (rs.get ⟨rs.length-1-j, by omega⟩) := by
  induction rs using List.reverseRecOn generalizing j with
  | nil => simp at hj
  | append_singleton rs r ih =>
    rw [List.length_append, List.length_singleton] at hj hn
    have hsp : (push r (pushAll rs c)).sp = (pushAll rs c).sp - 8 := rfl
    simp only [pushAll_snoc, word, hsp]
    change Function.update (pushAll rs c).mem ((pushAll rs c).sp - 8)
      ((pushAll rs c).reg r) _ = _
    cases j with
    | zero =>
      rw [Nat.mul_zero, BitVec.ofNat_eq_ofNat, BitVec.add_zero, Function.update_self, pushAll_reg]
      simp
    | succ j =>
      rw [Function.update_of_ne (by bv_omega)]
      have hw := ih j (by omega) (by omega)
      rw [word] at hw
      rw [show (pushAll rs c).sp - 8 + BitVec.ofNat 64 (8*(j+1)) =
        (pushAll rs c).sp + BitVec.ofNat 64 (8*j) by bv_omega, hw]
      congr 1
      simp only [List.get_eq_getElem, List.length_append, List.length_singleton]
      rw [List.getElem_append_left (by omega)]
      congr 1
      omega

section Words

def pushWords (ws : List (BitVec 64)) (c : Cpu R) : Cpu R := ws.foldl (fun c w => pushWord w c) c

theorem pushWords_snoc (ws : List (BitVec 64)) (w : BitVec 64) (c : Cpu R) :
    pushWords (ws++[w]) c = pushWord w (pushWords ws c) := by
  simp [pushWords]

@[simp] theorem pushWords_reg (ws : List (BitVec 64)) (c : Cpu R) :
    (pushWords ws c).reg = c.reg := by
  induction ws using List.reverseRecOn with
  | nil => rfl
  | append_singleton ws w ih => rw [pushWords_snoc]; exact ih

theorem pushWords_sp (ws : List (BitVec 64)) (c : Cpu R) :
    (pushWords ws c).sp = c.sp - BitVec.ofNat 64 (8*ws.length) := by
  induction ws using List.reverseRecOn with
  | nil => simp [pushWords]
  | append_singleton ws w ih =>
    rw [pushWords_snoc]
    change (pushWords ws c).sp - 8 = _
    rw [ih, List.length_append, List.length_singleton]
    bv_omega

theorem pushWords_mem (ws : List (BitVec 64)) (c : Cpu R) (a : BitVec 64)
    (h : ∀ j < ws.length, a ≠ c.sp - BitVec.ofNat 64 (8*(j+1))) :
    (pushWords ws c).mem a = c.mem a := by
  induction ws using List.reverseRecOn with
  | nil => rfl
  | append_singleton ws w ih =>
    rw [List.length_append, List.length_singleton] at h
    have ha : a ≠ (pushWords ws c).sp - 8 := by
      rw [pushWords_sp]
      intro he
      apply h ws.length (by omega)
      rw [he]
      bv_omega
    rw [pushWords_snoc]
    change Function.update (pushWords ws c).mem ((pushWords ws c).sp - 8) w a = _
    rw [Function.update_of_ne ha, ih fun j hj => h j (by omega)]

/-- Read from the stack pointer up, the words come in the reverse order. -/
theorem pushWords_word {ws : List (BitVec 64)} {c : Cpu R} {j : Nat} {v : BitVec 64}
    (hn : ws.length < 2^60) (h : ws.reverse[j]? = some v) : word (pushWords ws c) j = v := by
  induction ws using List.reverseRecOn generalizing j with
  | nil => simp at h
  | append_singleton ws w ih =>
    rw [List.length_append, List.length_singleton] at hn
    rw [List.reverse_append, List.reverse_singleton, List.singleton_append] at h
    have hsp : (pushWord w (pushWords ws c)).sp = (pushWords ws c).sp - 8 := rfl
    rw [pushWords_snoc, word, hsp]
    change Function.update (pushWords ws c).mem ((pushWords ws c).sp - 8) w _ = v
    cases j with
    | zero => simpa using h
    | succ j =>
      rw [List.getElem?_cons_succ] at h
      have hj : j < ws.length := by simpa using (List.getElem?_eq_some_iff.mp h).1
      have hw := ih (by omega) h
      rw [Function.update_of_ne (by bv_omega), ← hw, word]
      congr 1
      bv_omega

/-- Above the words pushed are the words that were there. -/
theorem pushWords_word_above (ws : List (BitVec 64)) (c : Cpu R) (j : Nat)
    (hn : ws.length + j < 2^60) : word (pushWords ws c) (ws.length+j) = word c j := by
  rw [word, pushWords_sp, pushWords_mem]
  · rw [word]
    congr 1
    bv_omega
  · intro i hi
    bv_omega

theorem pushAll_eq (rs : List R) (c : Cpu R) : pushAll rs c = pushWords (rs.map c.reg) c := by
  induction rs using List.reverseRecOn with
  | nil => rfl
  | append_singleton rs r ih =>
    rw [pushAll_snoc, push, pushAll_reg, ih, List.map_append, List.map_singleton, pushWords_snoc]

end Words

section Pop

variable [DecidableEq R]

def pop (r : R) (c : Cpu R) : Cpu R :=
  { c with sp := c.sp + 8, reg := Function.update c.reg r (c.mem c.sp) }

def popAll (rs : List R) (c : Cpu R) : Cpu R := rs.foldl (fun c r => pop r c) c

/-- The registers after `vs` is popped into `rs`: a later pop into the same one wins. -/
def assign (reg : R → BitVec 64) : List R → List (BitVec 64) → R → BitVec 64
  | r::rs, v::vs => assign (Function.update reg r v) rs vs
  | _, _ => reg

theorem popAll_spec (rs : List R) (vs : List (BitVec 64)) (c : Cpu R)
    (hl : vs.length = rs.length) (h : ∀ j (hj : j < vs.length), word c j = vs.get ⟨j, hj⟩) :
    (popAll rs c).reg = assign c.reg rs vs ∧
    (popAll rs c).sp = c.sp + BitVec.ofNat 64 (8*rs.length) ∧
    (popAll rs c).mem = c.mem ∧ (popAll rs c).ip = c.ip := by
  induction rs generalizing vs c with
  | nil => exact ⟨by cases vs <;> rfl, by simp [popAll], rfl, rfl⟩
  | cons r rs ih =>
    cases vs with
    | nil => simp at hl
    | cons v vs =>
      have hv : c.mem c.sp = v := by
        have := h 0 (by simp)
        simpa [word] using this
      obtain ⟨h1, h2, h3, h4⟩ := ih vs (pop r c) (by simpa using hl) (by
        intro j hj
        have := h (j+1) (by simpa using hj)
        rw [word] at this ⊢
        change c.mem (c.sp + 8 + BitVec.ofNat 64 (8*j)) = _
        rw [show c.sp + 8 + BitVec.ofNat 64 (8*j) = c.sp + BitVec.ofNat 64 (8*(j+1)) by bv_omega,
          this]
        rfl)
      refine ⟨?_, ?_, h3, h4⟩
      · change (popAll rs (pop r c)).reg = _
        rw [h1, assign, ← hv]
        rfl
      · change (popAll rs (pop r c)).sp = _
        rw [h2, List.length_cons]
        change c.sp + 8 + _ = _
        bv_omega

/-- A word pushed and popped again leaves the stack above it alone. -/
theorem pop_pushWord (r : R) (v : BitVec 64) (c : Cpu R) :
    (pop r (pushWord v c)).sp = c.sp ∧ (pop r (pushWord v c)).reg = Function.update c.reg r v ∧
    ∀ j < 2^60, word (pop r (pushWord v c)) j = word c j := by
  have hsp : (pop r (pushWord v c)).sp = c.sp := BitVec.sub_add_cancel _ _
  refine ⟨hsp, ?_, ?_⟩
  · change Function.update c.reg r (Function.update c.mem (c.sp - 8) v (c.sp - 8)) = _
    rw [Function.update_self]
  · intro j hj
    rw [word, hsp]
    exact Function.update_of_ne (by bv_omega) _ _

end Pop

end StackMachine
