import NumericEngine.Exec.Run
import NumericEngine.Proofs.Forall2

/-!
# Laws of effects

What sequencing does in the monads of the library: results that may fail, and
runs, which also carry a state and may be cut off. A sequence that succeeds is
taken apart into its steps.
-/

namespace NumericEngine

variable {ε σ α β : Type} {f : α → Except ε β} {x : Except ε α} {xs : List α}

theorem Except.bind_eq_ok : x >>= f = .ok b ↔ ∃ a, x = .ok a ∧ f a = .ok b := by
  cases x with
  | error e | ok a => simp [bind, Except.bind]

theorem Except.bind_eq_error : x >>= f = .error e ↔ x = .error e ∨ ∃ a, x = .ok a ∧ f a = .error e := by
  cases x with
  | error e => simp [bind, Except.bind]
  | ok a => simp [bind, Except.bind]

@[simp] theorem Except.ok_bind (a : α) (f : α → Except ε β) : (.ok a : Except ε α) >>= f = f a := rfl

@[simp] theorem Except.error_bind (e : ε) (f : α → Except ε β) :
    (.error e : Except ε α) >>= f = .error e := rfl

theorem Except.map_eq_ok {f : α → β} : f <$> x = .ok b ↔ ∃ a, x = .ok a ∧ f a = b := by
  cases x <;> simp [Functor.map, Except.map]

theorem Except.map_eq_error {f : α → β} : f <$> x = .error e ↔ x = .error e := by
  cases x <;> simp [Functor.map, Except.map]

theorem Except.toOption_eq_some (h : x.toOption = some a) : x = .ok a := by
  cases x with
  | error => cases h
  | ok => exact congrArg Except.ok (Option.some.inj h)

theorem Except.pure_eq_ok (a : α) : (pure a : Except ε α) = .ok a := rfl

theorem Except.of_ite [Decidable p] (h : (if p then x else .error e) = .ok a) : p ∧ x = .ok a := by
  split at h
  · exact ⟨‹_›, h⟩
  · cases h

theorem Except.of_ite_not [Decidable p] (h : (if p then .error e else x) = .ok a) : ¬p ∧ x = .ok a := by
  split at h
  · cases h
  · exact ⟨‹_›, h⟩

theorem mapM_eq_ok : xs.mapM f = .ok ys ↔ List.Forall₂ (fun x y => f x = .ok y) xs ys := by
  induction xs generalizing ys with
  | nil => cases ys <;> simp [Except.pure_eq_ok]
  | cons x xs ih =>
    simp only [List.mapM_cons, Except.bind_eq_ok, ih, List.forall₂_cons_left_iff]
    constructor
    · rintro ⟨y, hy, zs, hzs, h⟩
      cases h
      exact ⟨y, zs, hy, hzs, rfl⟩
    · rintro ⟨y, zs, hy, hzs, rfl⟩
      exact ⟨y, hy, zs, hzs, rfl⟩

theorem mapM_eq_some {f : α → Option β} :
    xs.mapM f = some ys ↔ List.Forall₂ (fun x y => f x = some y) xs ys := by
  induction xs generalizing ys with
  | nil => cases ys <;> simp
  | cons x xs ih =>
    simp only [List.mapM_cons, Option.bind_eq_bind, Option.bind_eq_some_iff, ih,
      List.forall₂_cons_left_iff, Option.pure_def, Option.some.injEq]
    constructor
    · rintro ⟨y, hy, zs, hzs, rfl⟩
      exact ⟨y, zs, hy, hzs, rfl⟩
    · rintro ⟨y, zs, hy, hzs, rfl⟩
      exact ⟨y, hy, zs, hzs, rfl⟩

theorem mapM_eq_error (h : xs.mapM f = .error e) : ∃ x ∈ xs, f x = .error e := by
  induction xs with
  | nil => cases h
  | cons x xs ih =>
    rw [List.mapM_cons] at h
    rcases Except.bind_eq_error.1 h with h | ⟨y, -, h⟩
    · exact ⟨x, List.mem_cons_self, h⟩
    · rcases Except.bind_eq_error.1 h with h | ⟨ys, -, h⟩
      · obtain ⟨x', hx', h⟩ := ih h
        exact ⟨x', List.mem_cons_of_mem x hx', h⟩
      · cases h

theorem mapM_range_error {f : Nat → Except ε α} (h : (List.range n).mapM f = .error e) :
    ∃ i < n, f i = .error e ∧ ∀ j < i, ∃ x, f j = .ok x := by
  induction n with
  | zero => cases h
  | succ n ih =>
    rw [List.range_succ, List.mapM_append] at h
    rcases Except.bind_eq_error.1 h with h | ⟨xs, hxs, h⟩
    · obtain ⟨i, hi, hf⟩ := ih h
      exact ⟨i, Nat.lt_succ_of_lt hi, hf⟩
    · refine ⟨n, Nat.lt_succ_self n, ?_, fun j hj => ?_⟩
      · rcases Except.bind_eq_error.1 h with h | ⟨ys, -, h⟩
        · obtain ⟨i, hi, h⟩ := mapM_eq_error h
          exact List.mem_singleton.1 hi ▸ h
        · cases h
      · obtain ⟨x, -, hx⟩ := forall₂_exists_right (mapM_eq_ok.1 hxs) (List.mem_range.2 hj)
        exact ⟨x, hx⟩

/-- A result that fails in allowed ways only, and has a property if it does not fail. -/
def Except.Ends {ε α : Type} (allowed : ε → Prop) (P : α → Prop) : Except ε α → Prop
  | .error e => allowed e
  | .ok a => P a

namespace Except.Ends

variable {allowed : ε → Prop} {P : α → Prop} {Q : β → Prop}

theorem bind (hx : Except.Ends allowed P x) (hk : ∀ a, P a → Except.Ends allowed Q (f a)) :
    Except.Ends allowed Q (x >>= f) := by
  cases x with
  | error e => exact hx
  | ok a => exact hk a hx

theorem mono (hx : Except.Ends allowed P x) (h : ∀ a, P a → P' a) : Except.Ends allowed P' x := by
  cases x with
  | error e => exact hx
  | ok a => exact h a hx

theorem mapM (h : ∀ x, Except.Ends allowed Q (f x)) :
    Except.Ends allowed (fun ys => ys.length = xs.length ∧ ∀ y ∈ ys, Q y) (xs.mapM f) := by
  induction xs with
  | nil => exact ⟨rfl, nofun⟩
  | cons x xs ih =>
    rw [List.mapM_cons]
    exact .bind (h x) fun y hy => .bind ih fun ys hys =>
      ⟨congrArg (· + 1) hys.1, List.forall_mem_cons.2 ⟨hy, hys.2⟩⟩

theorem foldlM {f : β → α → Except ε β} (hb : Q b) (hf : ∀ b x, Q b → Except.Ends allowed Q (f b x)) :
    Except.Ends allowed Q (xs.foldlM f b) := by
  induction xs generalizing b with
  | nil => exact hb
  | cons x xs ih => exact .bind (hf b x hb) fun c hc => ih hc

end Except.Ends

theorem Transition.bind_apply (x : Transition σ α) (f : α → Transition σ β) (s : σ) :
    (x >>= f) s = match x s with
      | (.error e, s') => (.error e, s')
      | (.ok a, s') => f a s' := by
  show ExceptT.bindCont f (x s).1 (x s).2 = _
  rcases x s with ⟨_ | _, s'⟩ <;> rfl

namespace Run

theorem bind_apply (x : Run σ α) (f : α → Run σ β) (s : σ) :
    (x >>= f) s = match x s with
      | none => none
      | some (.error e, s') => some (.error e, s')
      | some (.ok a, s') => f a s' := by
  show (x s).bind _ = _
  cases x s with
  | none => rfl
  | some p =>
    obtain ⟨r, s'⟩ := p
    cases r <;> rfl

/-- A sequence of runs ends with its first step, or after it. -/
theorem bind_eq_some {x : Run σ α} (h : (x >>= k) s = some (r, s')) :
    (∃ e, x s = some (.error e, s') ∧ r = .error e) ∨
      ∃ a t, x s = some (.ok a, t) ∧ k a t = some (r, s') := by
  rw [bind_apply] at h
  match hx : x s, h with
  | some (.error e, t), h =>
    cases h
    exact .inl ⟨e, rfl, rfl⟩
  | some (.ok a, t), h => exact .inr ⟨a, t, rfl, h⟩

theorem bind_eq_ok {x : Run σ α} (h : (x >>= k) s = some (.ok b, s')) :
    ∃ a t, x s = some (.ok a, t) ∧ k a t = some (.ok b, s') :=
  (bind_eq_some h).resolve_left fun ⟨_, _, hr⟩ => nomatch hr

@[simp] theorem pure_apply (a : α) (s : σ) : (pure a : Run σ α) s = some (.ok a, s) := rfl

@[simp] theorem throw_apply (e : Fault) (s : σ) :
    (throw e : Run σ α) s = some (.error e, s) := rfl

@[simp] theorem get_apply (s : σ) : (get : Run σ σ) s = some (.ok s, s) := rfl

@[simp] theorem set_apply (s t : σ) : (set t : Run σ PUnit) s = some (.ok (), t) := rfl

@[simp] theorem modify_apply (f : σ → σ) (s : σ) :
    (modify f : Run σ PUnit) s = some (.ok (), f s) := rfl

@[simp] theorem outcome_apply (x : Except Fault α) (s : σ) : outcome x s = some (x, s) := rfl

@[simp] theorem defect_apply (d : Defect) (s : σ) :
    (defect d : Run σ α) s = some (.error (.internal d), s) := rfl

/-- The last step of a loop starts where all steps before it have kept what they keep. -/
theorem iterate_last {I : σ → Prop}
    (hI : ∀ s s', I s → step s = some (.ok none, s') → I s') {r : Except Fault α} (hs : I s)
    (h : iterate step n s = some (r, s')) : ∃ t, I t ∧ step t = some (r.map some, s') := by
  induction n generalizing s with
  | zero => cases h
  | succ n ih =>
    rw [iterate] at h
    split at h
    · cases h
    · cases h
      exact ⟨s, hs, ‹_›⟩
    · cases h
      exact ⟨s, hs, ‹_›⟩
    · exact ih (hI s _ hs ‹_›) h

end Run

end NumericEngine
