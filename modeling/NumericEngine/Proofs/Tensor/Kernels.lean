import NumericEngine.Proofs.Effects
import NumericEngine.Proofs.Scalar.Canonical

/-!
# Tensor kernels on well-formed views

A kernel that succeeds gives a buffer of the length that the shape of its result
calls for. On elements of a numeric kind it fails by a shape, an overflow, a
division by zero or an access outside of a buffer only.
-/

namespace NumericEngine

/-- Kinds of numbers: reals are not booleans, components of complex numbers are floats. -/
def ElemKind.Numeric : ElemKind → Prop
  | real k => k ≠ .bool
  | complex k => k.isFloat = true

/-- Whether elements of a kind have a binary operator. -/
def ElemKind.supports (op : ArithOp) : ElemKind → Bool
  | real k => Scalar.supports op k
  | complex _ => Complex.supports op

theorem ElemKind.supports_of_add_mul {e : ElemKind} (he : e.Numeric)
    (hop : op = .add ∨ op = .mul) : e.supports op := by
  cases e with
  | real k =>
    have hk : k ≠ .bool := he
    rcases hop with rfl | rfl <;> simp [supports, Scalar.supports, hk, ArithOp.onFloats]
  | complex k => rcases hop with rfl | rfl <;> rfl

namespace Elem

/-- Whether an element is of the form of a kind. -/
def Fits : ElemKind → Elem → Prop
  | .real _, real _ => True
  | .complex _, complex .. => True
  | _, _ => False

theorem Fits.real (h : Fits (.real k) x) : ∃ w, x = .real w := by
  cases x with
  | real w => exact ⟨w, rfl⟩
  | complex re im => cases h

theorem Fits.complex (h : Fits (.complex k) x) : ∃ re im, x = .complex re im := by
  cases x with
  | real w => cases h
  | complex re im => exact ⟨re, im, rfl⟩

theorem fits_read : Fits e (read e bs) := by
  cases e <;> trivial

theorem fits_zero : Fits e (zero e) := by
  cases e <;> trivial

theorem fits_binary (h : binary op e a b checked = .ok x) : Fits e x := by
  unfold binary at h
  split at h
  · obtain ⟨w, -, rfl⟩ := Except.map_eq_ok.1 h
    trivial
  · obtain ⟨w, -, rfl⟩ := Except.map_eq_ok.1 h
    trivial
  · cases h

theorem binary_ne_unsupported {e : ElemKind} (he : e.Numeric) (hop : e.supports op)
    (ha : Fits e a) (hb : Fits e b) (checked : Bool) :
    binary op e a b checked ≠ .error .unsupported := by
  cases e with
  | real k =>
    obtain ⟨x, rfl⟩ := ha.real
    obtain ⟨y, rfl⟩ := hb.real
    simp only [binary, ne_eq, Except.map_eq_error]
    exact Scalar.binary_ne_unsupported hop x y checked
  | complex k =>
    obtain ⟨ar, ai, rfl⟩ := ha.complex
    obtain ⟨br, bi, rfl⟩ := hb.complex
    obtain ⟨p, hp, -⟩ := Complex.binary_isOk hop he (ar, ai) (br, bi)
    simp [binary, hp]

end Elem

namespace View

variable {σ α : Type} {a b v : View} {e : ElemKind} {checked : Bool} {i n : Nat} {x : Elem}

/-- What each step takes from one index to the next, a loop takes from the first index to the last. -/
theorem loop_ends {allowed : TensorError → Prop} {I : Nat → σ → Prop} {step : σ → Nat → Except TensorError σ}
    {s : σ} (hs : I i s) (hn : i + k = n)
    (hstep : ∀ j < n, ∀ s, I j s → Except.Ends allowed (I (j + 1)) (step s j)) :
    Except.Ends allowed (I n) (loop step k i s) := by
  induction k generalizing i s with
  | zero =>
    obtain rfl : i = n := hn
    exact hs
  | succ k ih => exact .bind (hstep i (by omega) s hs) fun s' hs' => ih hs' (by omega)

/-- A loop that succeeds has succeeded at each index. -/
theorem steps_of_loop {step : σ → Nat → Except TensorError σ} {s t : σ} (h : loop step k i s = .ok t) :
    ∀ j, i ≤ j → j < i + k → ∃ s s', step s j = .ok s' := by
  induction k generalizing i s with
  | zero =>
    intro j hle hlt
    omega
  | succ k ih =>
    obtain ⟨s', hs', hrest⟩ := Except.bind_eq_ok.1 h
    intro j hle hlt
    rcases Nat.eq_or_lt_of_le hle with rfl | hlt'
    · exact ⟨s, s', hs'⟩
    · exact ih hrest j hlt' (by omega)

/-- A loop fails as one of its steps does. -/
theorem step_of_loop_error {step : σ → Nat → Except TensorError σ} {s : σ} (h : loop step k i s = .error err) :
    ∃ s j, step s j = .error err := by
  induction k generalizing i s with
  | zero => cases h
  | succ k ih =>
    rcases Except.bind_eq_error.1 h with h | ⟨s', -, hrest⟩
    · exact ⟨s, i, h⟩
    · exact ih hrest

theorem arith_eq_ok {x : Except ArithError α} {c : α} : arith x = .ok c ↔ x = .ok c := by
  cases x <;> simp [arith, Except.mapError]

/-- A kernel that fails in no other way than by a shape, an overflow, a division by zero or a crash, or
gives what has a property. -/
abbrev Works {α : Type} (P : α → Prop) (x : Except TensorError α) : Prop :=
  Except.Ends (· ≠ .arith .unsupported) P x

theorem works_get (v : View) (i : Nat) : Works (Elem.Fits v.elem) (v.get i) := by
  unfold get readElem
  split
  · exact Elem.fits_read
  · exact nofun

theorem works_setElem (e : ElemKind) (data : Bytes) (i : Nat) (x : Elem) :
    Works (fun out => out.size = data.size) (setElem e data i x) := by
  unfold setElem
  split
  · exact Bytes.size_overwrite ..
  · exact nofun

theorem works_zeroed (size : Nat) : Works (fun out => out.size = size) (zeroed size) := by
  unfold zeroed
  split
  · exact Bytes.size_zeros size
  · exact nofun

theorem works_binary (he : e.Numeric) (hop : e.supports op) (hx : Elem.Fits e x) (hy : Elem.Fits e y) :
    Works (Elem.Fits e) (arith (Elem.binary op e x y checked)) := by
  have hne := Elem.binary_ne_unsupported he hop hx hy checked
  cases h : Elem.binary op e x y checked with
  | error err => exact fun heq => hne (h.trans (congrArg Except.error (TensorError.arith.inj heq)))
  | ok z => exact Elem.fits_binary h

theorem works_add (he : e.Numeric) (hx : Elem.Fits e x) (hy : Elem.Fits e y) :
    Works (Elem.Fits e) (arith (Elem.binary .add e x y checked)) :=
  works_binary he (ElemKind.supports_of_add_mul he (.inl rfl)) hx hy

theorem works_mul (he : e.Numeric) (hx : Elem.Fits e x) (hy : Elem.Fits e y) :
    Works (Elem.Fits e) (arith (Elem.binary .mul e x y checked)) :=
  works_binary he (ElemKind.supports_of_add_mul he (.inr rfl)) hx hy

theorem works_sameShape : Works (fun _ => a.shape = b.shape) (sameShape a b) := by
  unfold sameShape
  split
  · assumption
  · exact nofun

theorem works_fill {value : Nat → Except TensorError Elem} (h : ∀ i, Works (Elem.Fits e) (value i))
    (data : Bytes) : Works (fun out => out.size = data.size) (fill e value n data) :=
  loop_ends (I := fun _ out => out.size = data.size) rfl (Nat.zero_add n) fun i _ out hout =>
    .bind (h i) fun x _ => (works_setElem e out i x).mono fun _ hsize => hsize.trans hout

theorem works_elementwise (he : a.elem.Numeric) (hop : a.elem.supports op) (hab : b.elem = a.elem) :
    Works (fun data => a.shape = b.shape ∧ data.size = a.data.size) (a.elementwise op b checked) :=
  .bind works_sameShape fun _ hs =>
    (works_fill (fun i => .bind (works_get a i) fun _ hx => .bind (works_get b i) fun _ hy =>
      works_binary he hop hx (hab ▸ hy)) _).mono fun _ hsize => ⟨hs, hsize.trans (Bytes.size_zeros _)⟩

theorem works_scale (he : v.elem.Numeric) (hx : Elem.Fits v.elem x) :
    Works (fun data => data.size = v.data.size) (v.scale x checked) :=
  (works_fill (fun i => .bind (works_get v i) fun _ hy => works_mul he hy hx) _).mono fun _ hsize =>
    hsize.trans (Bytes.size_zeros _)

theorem works_sum (he : v.elem.Numeric) : Works (Elem.Fits v.elem) (v.sum checked) :=
  loop_ends (I := fun _ => Elem.Fits v.elem) Elem.fits_zero (Nat.zero_add _) fun i _ _ hx =>
    .bind (works_get v i) fun _ hy => works_add he hx hy

theorem works_innerProduct {f g : Nat → Except TensorError Elem} (he : e.Numeric)
    (hf : ∀ i, Works (Elem.Fits e) (f i)) (hg : ∀ i, Works (Elem.Fits e) (g i)) : Works (Elem.Fits e)
    (innerProduct e n f g checked) :=
  loop_ends (I := fun _ => Elem.Fits e) Elem.fits_zero (Nat.zero_add n) fun i _ _ hx =>
    .bind (hf i) fun _ hy => .bind (hg i) fun _ hz => .bind (works_mul he hy hz) fun _ hp => works_add he hx hp

theorem works_dot (he : a.elem.Numeric) (hab : b.elem = a.elem) : Works (Elem.Fits a.elem) (a.dot b checked) :=
  .bind works_sameShape fun _ _ => works_innerProduct he (works_get a) fun i => hab ▸ works_get b i

theorem works_matmul (he : a.elem.Numeric) (hab : b.elem = a.elem) :
    Works (fun out => out.2.size = Word.mul out.1.count a.elem.size) (a.matmul b checked) := by
  unfold matmul
  split
  · rename_i m l l' n _ _
    split
    · refine .bind (works_zeroed _) fun out hout => .bind (loop_ends (I := fun _ (w : Bytes) => w.size = out.size)
        rfl (Nat.zero_add _) fun i _ _ hrow => loop_ends (I := fun _ (w : Bytes) => w.size = out.size)
          hrow (Nat.zero_add _) fun j _ _ hcell => ?_) fun out' hout' => ?_
      · exact .bind (works_innerProduct he (fun _ => works_get a _) fun _ => hab ▸ works_get b _) fun x _ =>
          (works_setElem _ _ _ x).mono fun _ hsize => hsize.trans hcell
      · show out'.size = Word.mul (Word.mul m.toNat (Word.mul n.toNat 1)) a.elem.size
        rw [hout', hout, Word.mul_of_lt (b := 1) (by have := n.toNat_lt; omega), Nat.mul_one]
    · exact nofun
  · exact nofun

theorem works_position (acc : Nat) (shape : Shape) (indices : List Int) :
    Works (fun _ => True) (Shape.position acc shape indices) := by
  fun_induction Shape.position with
  | case1 => exact nofun
  | case2 _ _ _ _ _ _ ih => exact ih
  | case3 => trivial

theorem works_flatIndex {shape : Shape} : Works (fun _ => True) (shape.flatIndex indices) := by
  unfold Shape.flatIndex
  split
  · exact works_position 0 shape indices
  · exact nofun

end View

end NumericEngine
