import FrontEnd.Proofs.Grammar.Trail

namespace FrontEnd

structure Cursor.Within (tokens : List Token) (c : Cursor) : Prop where
  pos_le : c.pos ≤ tokens.length
  rest_eq : c.rest = tokens.drop c.pos

namespace Cursor.Within

variable {tokens : List Token} {c d : Cursor}

theorem ofTokens (tokens : List Token) : (Cursor.ofTokens tokens).Within tokens where
  pos_le := Nat.zero_le _
  rest_eq := rfl

theorem of_reaches (h : c.Within tokens) (hreaches : c.Reaches d) : d.Within tokens := by
  obtain ⟨passed, hrest, hpos, _⟩ := hreaches
  rw [h.rest_eq] at hrest
  obtain ⟨hle, _, hdrop⟩ := Rule.slice_of_drop h.pos_le hrest
  rw [← hpos] at hle hdrop
  exact ⟨hle, hdrop.symm⟩

theorem of_same_place (h : c.Within tokens) (hpos : d.pos = c.pos) (hrest : d.rest = c.rest) :
    d.Within tokens where
  pos_le := by
    rw [hpos]
    exact h.pos_le
  rest_eq := by rw [hrest, hpos, h.rest_eq]

theorem ordered (h : c.Within tokens) (htokens : ∀ t ∈ tokens, t.span.start ≤ t.span.stop) :
    c.Ordered := by
  intro t ht
  rw [h.rest_eq] at ht
  exact htokens t (List.mem_of_mem_drop ht)

end Cursor.Within

theorem Cursor.Reaches.pos_le {c d : Cursor} (h : c.Reaches d) : c.pos ≤ d.pos := by
  obtain ⟨passed, _, hpos, _⟩ := h
  rw [hpos]
  exact Nat.le_add_right _ _

namespace Rule

theorem restoring_name : Restoring name := (restoring_rewinding _).noting _

theorem restoring_typeExpr : Restoring typeExpr := restoring_rewinding _

theorem restoring_arguments : Restoring arguments := (restoring_rewinding _).noting _

theorem restoring_globalScope : Restoring globalScope := (restoring_rewinding _).noting _

theorem restoring_nestedScope : Restoring nestedScope := restoring_rewinding _

end Rule

end FrontEnd
