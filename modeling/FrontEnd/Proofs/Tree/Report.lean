import FrontEnd.Proofs.Tree.Alike
import FrontEnd.Report

namespace FrontEnd

theorem Fault.exists_map {α β : Type} {result : Except Fault α} (f : α → β)
    (h : ∃ a, result = .ok a) : ∃ b, f <$> result = .ok b := by
  obtain ⟨a, rfl⟩ := h
  exact ⟨f a, rfl⟩

theorem Fault.exists_bind {α β : Type} {result : Except Fault α} {next : α → Except Fault β}
    (h : ∃ a, result = .ok a) (h' : ∀ a, ∃ b, next a = .ok b) : ∃ b, result >>= next = .ok b := by
  obtain ⟨a, rfl⟩ := h
  exact h' a

theorem Fault.exists_mapM {α β : Type} {f : α → Except Fault β} {xs : List α}
    (h : ∀ x ∈ xs, ∃ y, f x = .ok y) : ∃ ys, xs.mapM f = .ok ys := by
  induction xs with
  | nil => exact ⟨[], rfl⟩
  | cons x xs ih =>
    obtain ⟨hx, hxs⟩ := List.forall_mem_cons.1 h
    rw [List.mapM_cons]
    exact exists_bind hx fun _ => exists_bind (ih hxs) fun _ => ⟨_, rfl⟩

namespace Token.Alike

variable {t : Token}

theorem exists_own_text (h : t.Alike t) : ∃ text, t.text = .ok text := by
  obtain ⟨text, htext, _⟩ := h.exists_text
  exact ⟨text, htext⟩

theorem exists_report (h : t.Alike t) : ∃ report, t.report = .ok report :=
  Fault.exists_bind h.exists_own_text fun _ => ⟨_, rfl⟩

end Token.Alike

theorem Token.exists_reportAll {tokens : List Token} (h : ∀ t ∈ tokens, t.Alike t) :
    ∃ reports, Token.reportAll tokens = .ok reports :=
  Fault.exists_mapM fun t ht => (h t ht).exists_report

theorem NameUnit.Alike.exists_own_text {u : NameUnit} (h : u.Alike u) :
    ∃ text, u.text = .ok text := by
  cases h with
  | ident token => exact token.exists_own_text
  | separator => exact ⟨_, rfl⟩

theorem NameUnit.Alike.exists_report {u : NameUnit} (h : u.Alike u) :
    ∃ report, u.report = .ok report := by
  cases h with
  | ident token => exact Fault.exists_map _ token.exists_report
  | separator => exact ⟨none, rfl⟩

namespace QualifiedName.Alike

variable {n : QualifiedName}

theorem units (h : n.Alike n) : ∀ u ∈ n.units, u.Alike u := List.forall₂_same.1 h

theorem idents (h : n.Alike n) : ∀ t ∈ n.idents, t.Alike t := by
  intro t ht
  obtain ⟨u, hu, hut⟩ := List.mem_filterMap.1 ht
  have hunit := h.units u hu
  cases hunit with
  | ident token =>
    cases hut
    exact token
  | separator => cases hut

theorem exists_own_text (h : n.Alike n) : ∃ text, n.text = .ok text :=
  Fault.exists_bind (Fault.exists_mapM fun u hu => (h.units u hu).exists_own_text) fun _ => ⟨_, rfl⟩

theorem exists_report (h : n.Alike n) : ∃ report, n.report = .ok report := by
  apply Fault.exists_bind h.exists_own_text
  intro text
  apply Fault.exists_bind (Fault.exists_mapM fun t ht => (h.idents t ht).exists_own_text)
  intro idents
  refine Fault.exists_bind ?_ fun _ => ⟨_, rfl⟩
  exact Fault.exists_mapM fun u hu => (h.units u hu).exists_report

end QualifiedName.Alike

namespace TypeExpr.Alike

variable {t : TypeExpr}

theorem name (h : t.Alike t) : t.name.Alike t.name := by
  induction t with
  | named isConst n =>
    cases h with
    | named name => exact name
  | pointer isConst pointee ih =>
    cases h with
    | pointer pointee => exact ih pointee

theorem exists_report (h : t.Alike t) : ∃ report, t.report = .ok report := by
  apply Fault.exists_bind (Fault.exists_bind h.name.exists_own_text fun _ => ⟨_, rfl⟩)
  intro text
  exact Fault.exists_bind h.name.exists_report fun _ => ⟨_, rfl⟩

end TypeExpr.Alike

theorem Argument.Alike.exists_report {a : Argument} (h : a.Alike a) :
    ∃ report, a.report = .ok report := by
  have htype := h.type
  apply Fault.exists_bind h.name.exists_report
  intro name
  refine Fault.exists_bind ?_ fun _ => ⟨_, rfl⟩
  generalize a.type = type at htype
  cases htype with
  | none => exact ⟨none, rfl⟩
  | some type => exact Fault.exists_map _ type.exists_report

end FrontEnd
