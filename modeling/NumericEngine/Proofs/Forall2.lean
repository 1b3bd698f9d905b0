import Mathlib.Data.List.Forall2

/-!
# Lists that correspond element by element, and association lists
-/

namespace NumericEngine

variable {α β : Type} {R : α → β → Prop} {xs : List α} {ys : List β}

section

variable (h : List.Forall₂ R xs ys)
include h

theorem forall₂_exists_left (hy : y ∈ ys) : ∃ x ∈ xs, R x y := by
  induction h with
  | nil => cases hy
  | cons hr _ ih =>
    rcases List.mem_cons.1 hy with rfl | hy
    · exact ⟨_, List.mem_cons_self, hr⟩
    · obtain ⟨x, hx, hr⟩ := ih hy
      exact ⟨x, List.mem_cons_of_mem _ hx, hr⟩

theorem forall₂_exists_right (hx : x ∈ xs) : ∃ y ∈ ys, R x y :=
  forall₂_exists_left h.flip hx

theorem forall₂_imp_mem (hi : ∀ x ∈ xs, ∀ y ∈ ys, R x y → S x y) : List.Forall₂ S xs ys := by
  induction h with
  | nil => exact .nil
  | cons hr _ ih =>
    refine .cons (hi _ List.mem_cons_self _ List.mem_cons_self hr) (ih ?_)
    intro x hx y hy
    exact hi x (List.mem_cons_of_mem _ hx) y (List.mem_cons_of_mem _ hy)

theorem forall₂_getElem?_right {i : Nat} (hy : ys[i]? = some y) : ∃ x, xs[i]? = some x ∧ R x y := by
  induction h generalizing i with
  | nil => cases hy
  | cons hr _ ih =>
    cases i with
    | zero =>
      cases hy
      exact ⟨_, rfl, hr⟩
    | succ i => exact ih hy

theorem forall₂_getElem?_left {i : Nat} (hx : xs[i]? = some x) : ∃ y, ys[i]? = some y ∧ R x y :=
  forall₂_getElem?_right h.flip hx

end

theorem forall₂_zip_of_forall₂ {R : α → γ → Prop} {S : β → γ → Prop}
    (hx : List.Forall₂ R xs zs) (hy : List.Forall₂ S ys zs)
    (h : (x, y) ∈ xs.zip ys) : ∃ z, R x z ∧ S y z := by
  induction hx generalizing ys with
  | nil => cases h
  | cons hr _ ih =>
    cases hy with
    | cons hs hrest =>
      rcases List.mem_cons.1 h with h | h
      · cases h
        exact ⟨_, hr, hs⟩
      · exact ih hrest h

theorem forall₂_comp
    (h : List.Forall₂ R xs ys) (h' : List.Forall₂ T ys zs) (hU : ∀ x y z, R x y → T y z → U x z) :
    List.Forall₂ U xs zs := by
  induction h generalizing zs with
  | nil =>
    cases h'
    exact .nil
  | cons hr _ ih =>
    cases h' with
    | cons ht hrest => exact .cons (hU _ _ _ hr ht) (ih hrest)

theorem forall₂_set (h : List.Forall₂ R xs ys)
    (hx : ∀ y, ys[i]? = some y → R x y) : List.Forall₂ R (xs.set i x) ys := by
  induction h generalizing i with
  | nil => exact .nil
  | cons hr hrs ih =>
    cases i with
    | zero => exact .cons (hx _ rfl) hrs
    | succ i => exact .cons hr (ih fun y hy => hx y hy)

theorem filterMap_eq_map
    (h : List.Forall₂ (fun x y => f y = some (g x)) xs ys) : ys.filterMap f = xs.map g := by
  induction h with
  | nil => rfl
  | cons hf _ ih => rw [List.filterMap_cons, hf, List.map_cons, ih]

theorem lookup_cons_of_ne [BEq α] [LawfulBEq α] {xs : List (α × β)}
    (h : k ≠ k') : ((k', v) :: xs).lookup k = xs.lookup k := by
  rw [List.lookup_cons, beq_false_of_ne h]

theorem mem_of_lookup [BEq α] [LawfulBEq α] {xs : List (α × β)}
    (h : xs.lookup k = some v) : (k, v) ∈ xs := by
  obtain ⟨_, _, rfl, -⟩ := List.lookup_eq_some_iff.1 h
  simp

end NumericEngine
