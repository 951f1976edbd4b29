import Chase.Vm.Machine

/-!
# Instruction boundaries

A position of the code is a boundary when the instructions before it end there: the bytes that a
push carries are not boundaries. `Valids` marks exactly the boundaries with a `JUMPDEST`
(`isValid_new_iff`), so a jump never goes into the bytes of a push.
-/

namespace Chase.Vm

/-- The positions where instructions begin, from `start` on. -/
inductive Boundary (code : Bytes) (start : Nat) : Nat → Prop
  | refl : Boundary code start start
  | next {p : Nat} {o : Opcode} :
    Boundary code start p → code[p]? = some o → Boundary code start (p + (1 + (decode o).immediate))

namespace Boundary

variable {code : Bytes} {start p : Nat} {o : Opcode}

/-- A boundary of what follows an instruction is one of the code from the instruction on. -/
theorem cons (ho : code[start]? = some o)
    (h : Boundary code (start + (1 + (decode o).immediate)) p) : Boundary code start p := by
  induction h with
  | refl => exact .next .refl ho
  | next _ ho' ih => exact .next ih ho'

/-- A boundary is the first one, or a boundary after the first instruction. -/
theorem head (ho : code[start]? = some o) :
    Boundary code start p ↔ p = start ∨ Boundary code (start + (1 + (decode o).immediate)) p := by
  constructor
  · intro h
    induction h with
    | refl => exact .inl rfl
    | @next q o' _ ho' ih =>
      rcases ih with rfl | ih
      · cases ho.symm.trans ho'
        exact .inr .refl
      · exact .inr (.next ih ho')
  · rintro (rfl | h)
    · exact .refl
    · exact cons ho h

theorem eq_of_none (ho : code[start]? = none) (h : Boundary code start p) : p = start := by
  induction h with
  | refl => rfl
  | next _ ho' ih =>
    subst ih
    rw [ho] at ho'
    cases ho'

end Boundary

namespace Valids

variable {code : Bytes}

/-- Marking a position makes it valid. -/
theorem isValid_set {valids : Valids} {i p : Nat} (hi : i < valids.length) :
    isValid (valids.set i true) p = true ↔ p = i ∨ isValid valids p = true := by
  rw [isValid, isValid, List.getD_eq_getElem?_getD, List.getD_eq_getElem?_getD]
  by_cases hp : i = p
  · subst hp
    simp [hi]
  · rw [List.getElem?_set_ne hp]
    exact ⟨.inr, fun h => h.resolve_left (Ne.symm hp)⟩

/-- The scan follows the boundaries: it marks those with a `JUMPDEST` from where it stands on. -/
theorem isValid_loop {rounds i : Nat} {valids : Valids} (hlen : valids.length = code.length)
    (hrounds : code.length ≤ i + rounds) (p : Nat) :
    isValid (loop code rounds i valids) p = true ↔
      isValid valids p = true ∨ Boundary code i p ∧ code[p]? = some jumpdest := by
  induction rounds generalizing i valids with
  | zero =>
    have hnone : code[i]? = none := List.getElem?_eq_none hrounds
    rw [loop]
    refine ⟨.inl, fun h => h.resolve_right fun ⟨hb, hp⟩ => ?_⟩
    rw [hb.eq_of_none hnone, hnone] at hp
    cases hp
  | succ rounds ih =>
    rw [loop]
    cases ho : code[i]? with
    | none =>
      refine ⟨.inl, fun h => h.resolve_right fun ⟨hb, hp⟩ => ?_⟩
      rw [hb.eq_of_none ho, ho] at hp
      cases hp
    | some o =>
      have hi : i < code.length := (List.getElem?_eq_some_iff.1 ho).1
      have himm := isPush_getD o
      rw [Boundary.head ho]
      dsimp only
      split
      · rename_i hjump
        have hzero : (decode o).immediate = 0 := by
          rw [(decode_eq_jumpdest_iff o).2 hjump]
          rfl
        rw [ih (by rwa [List.length_set]) (by omega), isValid_set (by omega), hzero]
        constructor
        · rintro ((rfl | h) | h)
          · exact .inr ⟨.inl rfl, hjump ▸ ho⟩
          · exact .inl h
          · exact .inr ⟨.inr h.1, h.2⟩
        · rintro (h | ⟨rfl | h, hp⟩)
          · exact .inl (.inr h)
          · exact .inl (.inl rfl)
          · exact .inr ⟨h, hp⟩
      · rename_i hjump
        -- A byte that is no `JUMPDEST` is passed with the bytes that it carries.
        have hstep : isValid valids p = true ∨
              Boundary code (i + (1 + (decode o).immediate)) p ∧ code[p]? = some jumpdest ↔
            isValid valids p = true ∨
              (p = i ∨ Boundary code (i + (1 + (decode o).immediate)) p) ∧
                code[p]? = some jumpdest := by
          refine or_congr_right ⟨fun h => ⟨.inr h.1, h.2⟩, ?_⟩
          rintro ⟨rfl | h, hp⟩
          · cases ho.symm.trans hp
            exact absurd rfl hjump
          · exact ⟨h, hp⟩
        rw [← hstep]
        cases hpush : isPush o with
        | none =>
          rw [hpush, Option.getD_none] at himm
          rw [← himm]
          exact ih hlen (by omega)
        | some v =>
          rw [hpush, Option.getD_some] at himm
          dsimp only
          rw [← himm, show i + (1 + v) = i + v + 1 by omega]
          exact ih hlen (by omega)

/-- The valid jump destinations are the boundaries with a `JUMPDEST`. -/
theorem isValid_new_iff (p : Nat) :
    isValid (new code) p = true ↔ Boundary code 0 p ∧ code[p]? = some jumpdest := by
  have hfalse : isValid (List.replicate code.length false) p = false := by
    rw [isValid, List.getD_eq_getElem?_getD, List.getElem?_replicate]
    split <;> rfl
  rw [new, isValid_loop (List.length_replicate ..) (Nat.le_add_left ..), hfalse]
  simp

end Valids

end Chase.Vm
