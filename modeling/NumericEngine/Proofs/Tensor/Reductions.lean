import Mathlib.Algebra.BigOperators.Fin
import Mathlib.Algebra.BigOperators.ModEq
import Mathlib.Data.Matrix.Mul
import NumericEngine.Proofs.Scalar.Integers
import NumericEngine.Proofs.Tensor.Bounds

/-!
# Reductions over integers

Reduction modulo the width respects sums and products, so a loop that wraps each
partial result ends with the word of the exact one. A checked loop refuses at the
first product or partial sum that is out of range. All this is so where buffers
hold all elements that their shapes call for.
-/

namespace NumericEngine

open List

namespace Kind

variable {k : Kind}

theorem toInt_injective {a b : UInt64} (h : k.toInt a = k.toInt b) : a = b := by
  unfold toInt at h
  split at h
  · exact UInt64.eq_of_toBitVec_eq (BitVec.eq_of_toInt_eq h)
  · exact UInt64.toNat_inj.1 (Int.ofNat.inj h)

theorem wrap_congr (hk : k.isInt) (h : u ≡ v [ZMOD 2 ^ k.width]) : k.wrap u = k.wrap v := by
  have hu := represents_wrap hk u
  have hv := represents_wrap hk v
  exact toInt_injective (eq_of_modEq hk hu.inRange hv.inRange (hu.modEq.trans (h.trans hv.modEq.symm)))

theorem wrap_toInt (hk : k.isInt) {w : UInt64} (hw : k.Canonical w) : k.wrap (k.toInt w) = w :=
  toInt_injective ((represents_wrap hk _).toInt_eq hk (inRange_toInt hk hw))

end Kind

/-- The integer that an element stands for. -/
def Elem.toInt (k : Kind) : Elem → Int
  | real w => k.toInt w
  | complex .. => 0

namespace View

variable {k : Kind} {checked : Bool}

/-- Every term and every partial sum of the first `n` terms is an integer of the kind. -/
def Steady (k : Kind) (terms : Nat → Int) (n : Nat) : Prop :=
  ∀ i < n, k.inRange (terms i) ∧ k.inRange (∑ j ∈ Finset.range (i + 1), terms j)

instance (k : Kind) (terms : Nat → Int) (n : Nat) : Decidable (Steady k terms n) :=
  inferInstanceAs (Decidable (∀ i < n, _))

theorem steady_succ : Steady k terms (n + 1) ↔
    Steady k terms n ∧ k.inRange (terms n) ∧ k.inRange (∑ j ∈ Finset.range (n + 1), terms j) := by
  constructor
  · intro h
    exact ⟨fun i hi => h i (by omega), h n (by omega)⟩
  · rintro ⟨h, hn⟩ i hi
    rcases Nat.lt_succ_iff_lt_or_eq.1 hi with hi | rfl
    · exact h i hi
    · exact hn

theorem Steady.inRange_sum (h : Steady k terms n) : k.inRange (∑ j ∈ Finset.range n, terms j) := by
  cases n with
  | zero => cases k <;> rfl
  | succ n => exact (h n (Nat.lt_succ_self n)).2

/-! ## Loops that add up terms -/

/-- A step that adds one of `n` terms to a wrapped sum, unless it checks and a result is out of range. -/
def Adds (k : Kind) (checked : Bool) (terms : Nat → Int) (n : Nat) (step : Elem → Nat → Except TensorError Elem) :
    Prop :=
  ∀ i < n, ∀ s, (checked → k.inRange s) → step (.real (k.wrap s)) i =
    if checked ∧ ¬(k.inRange (terms i) ∧ k.inRange (s + terms i)) then .error (.arith .overflow)
    else .ok (.real (k.wrap (s + terms i)))

/-- A result that is the wrapped sum of `n` terms, or reports that a checked one is out of range. -/
abbrev Sums (k : Kind) (checked : Bool) (terms : Nat → Int) (n : Nat) (out : Except TensorError Elem) : Prop :=
  Except.Ends (fun err => err = .arith .overflow ∧ checked ∧ ¬Steady k terms n)
    (fun acc => acc = .real (k.wrap (∑ i ∈ Finset.range n, terms i)) ∧ (checked → Steady k terms n)) out

theorem sums_loop (h : Adds k checked terms n step) : Sums k checked terms n (loop step n 0 (.real 0)) := by
  refine loop_ends (I := fun i acc => acc = Elem.real (k.wrap (∑ j ∈ Finset.range i, terms j)) ∧
      (checked → Steady k terms i))
    ⟨congrArg Elem.real k.canonical_zero.symm, fun _ _ hi => absurd hi (Nat.not_lt_zero _)⟩ (Nat.zero_add n) ?_
  rintro i hi acc ⟨rfl, hsteady⟩
  rw [h i hi _ fun hc => (hsteady hc).inRange_sum, ← Finset.sum_range_succ]
  split
  · rename_i hout
    exact ⟨rfl, hout.1, fun hall => hout.2 (hall i hi)⟩
  · rename_i hin
    exact ⟨rfl, fun hc => steady_succ.2 ⟨hsteady hc, not_not.1 fun hout => hin ⟨hc, hout⟩⟩⟩

theorem binary_fit {op : ArithOp} (hk : k.isInt) (hop : op = .add ∨ op = .mul)
    (hv : Scalar.exactResult? op (k.toInt a) (k.toInt b) = some v) :
    arith (Elem.binary op (.real k) (.real a) (.real b) checked) =
      if checked ∧ ¬k.inRange v then .error (.arith .overflow) else .ok (.real (k.wrap v)) := by
  have hfit : Scalar.binary op k a b checked = Scalar.fit op k a b checked v := by
    rw [Scalar.binary_of_isInt hk]
    rcases hop with rfl | rfl <;> cases hv <;> rfl
  rw [Elem.binary, hfit, Scalar.fit_eq hv]
  cases checked <;> cases k.inRange v <;> rfl

theorem add_wrap (hk : k.isInt) (hs : checked → k.inRange s) (ht : checked → k.inRange t) :
    arith (Elem.binary .add (.real k) (.real (k.wrap s)) (.real (k.wrap t)) checked) =
      if checked ∧ ¬k.inRange (s + t) then .error (.arith .overflow) else .ok (.real (k.wrap (s + t))) := by
  have hsum := Kind.represents_wrap hk s
  have hterm := Kind.represents_wrap hk t
  rw [binary_fit hk (.inl rfl) rfl]
  cases checked with
  | true => rw [hsum.toInt_eq hk (hs rfl), hterm.toInt_eq hk (ht rfl)]
  | false => simp [Kind.wrap_congr hk (hsum.modEq.add hterm.modEq)]

theorem element_real (v : View) (he : v.elem = .real k) (i : Nat) : ∃ w, v.element i = .real w ∧
    k.Canonical w := by
  rw [element, he]
  exact ⟨_, rfl, k.canonical_of_canonical _⟩

theorem fits_element (v : View) (i : Nat) : Elem.Fits v.elem (v.element i) := Elem.fits_read

theorem adds_element (hk : k.isInt) {v : View} (he : v.elem = .real k) (hv : v.Whole) :
    Adds k checked (fun i => (v.element i).toInt k) v.length
      (fun acc i => do arith (Elem.binary .add (.real k) acc (← v.get i) checked)) := by
  intro i hi s hs
  obtain ⟨w, hw, hc⟩ := v.element_real he i
  have ht := Kind.inRange_toInt hk hc
  have hadd := add_wrap hk hs fun _ => ht
  rw [Kind.wrap_toInt hk hc] at hadd
  simp [hv.get hi, hw, hadd, Elem.toInt, ht]

theorem adds_product (hk : k.isInt) {f g : Nat → Except TensorError Elem} {x y : Nat → Elem}
    (hf : ∀ i < n, f i = .ok (x i)) (hg : ∀ i < n, g i = .ok (y i)) (hx : ∀ i, Elem.Fits (.real k) (x i))
    (hy : ∀ i, Elem.Fits (.real k) (y i)) :
    Adds k checked (fun i => (x i).toInt k * (y i).toInt k) n (fun acc i => do
      let p ← arith (Elem.binary .mul (.real k) (← f i) (← g i) checked)
      arith (Elem.binary .add (.real k) acc p checked)) := by
  intro i hi s hs
  obtain ⟨a, ha⟩ := (hx i).real
  obtain ⟨b, hb⟩ := (hy i).real
  simp only [hf i hi, hg i hi, Except.ok_bind, ha, hb, Elem.toInt, binary_fit hk (.inr rfl) rfl]
  by_cases hp : checked ∧ ¬k.inRange (k.toInt a * k.toInt b)
  · rw [if_pos hp, if_pos ⟨hp.1, fun h => hp.2 h.1⟩]
    rfl
  · rw [if_neg hp, Except.ok_bind, add_wrap hk hs fun hc => not_not.1 fun h => hp ⟨hc, h⟩]
    congr 1
    simp only [eq_iff_iff]
    tauto

theorem sums_innerProduct (hk : k.isInt) {f g : Nat → Except TensorError Elem} {x y : Nat → Elem}
    (hf : ∀ i < n, f i = .ok (x i)) (hg : ∀ i < n, g i = .ok (y i)) (hx : ∀ i, Elem.Fits (.real k) (x i))
    (hy : ∀ i, Elem.Fits (.real k) (y i)) :
    Sums k checked (fun i => (x i).toInt k * (y i).toInt k) n (innerProduct (.real k) n f g checked) :=
  sums_loop (adds_product hk hf hg hx hy)

/-! ## Matrices -/

/-- A view as the matrix of its integers, in row-major order. -/
def matrix (k : Kind) (v : View) (m n : Nat) : Matrix (Fin m) (Fin n) Int :=
  fun i j => (v.element (i * n + j)).toInt k

/-- The terms of entry `(i, j)` of a product of matrices. -/
def products (k : Kind) (a b : View) (l n i j p : Nat) : Int :=
  (a.element (i * l + p)).toInt k * (b.element (p * n + j)).toInt k

/-- Sizes of matrices whose buffers, and that of their product, hold all elements. -/
def Fitting (k : Kind) (m l n : UInt64) : Prop :=
  m.toNat * l.toNat * k.size < 2 ^ 64 ∧ l.toNat * n.toNat * k.size < 2 ^ 64 ∧ m.toNat * n.toNat * k.size < 2 ^ 63

instance (k : Kind) (m l n : UInt64) : Decidable (Fitting k m l n) := inferInstanceAs (Decidable (_ ∧ _))

theorem mul_apply (a b : View) (i : Fin m) (j : Fin n) :
    (a.matrix k m l * b.matrix k l n) i j = ∑ p ∈ Finset.range l, products k a b l n i j p := by
  rw [Matrix.mul_apply, Finset.sum_range]
  rfl

theorem cell_div {n i j : Nat} (hj : j < n) : (i * n + j) / n = i ∧ (i * n + j) % n = j := by
  rw [Nat.mul_comm, Nat.mul_add_div (Nat.zero_lt_of_lt hj), Nat.mul_add_mod, Nat.div_eq_of_lt hj,
    Nat.mod_eq_of_lt hj]
  exact ⟨rfl, rfl⟩

theorem exact_of_shape {v : View} (he : v.elem = .real k) (hs : v.shape = [m, n])
    (h : m.toNat * n.toNat * k.size < 2 ^ 64) : v.Exact := by
  have hvolume : v.shape.volume = m.toNat * n.toNat := by simp [hs, Shape.volume]
  rwa [Exact, hvolume, he]

/-- The wrapped entries of a product, in row-major order. -/
def productEntry (k : Kind) (a b : View) (l n q : Nat) : Elem :=
  .real (k.wrap (∑ p ∈ Finset.range l, products k a b l n (q / n) (q % n) p))

section
variable (hk : k.isInt) {a b : View} (ha : a.elem = .real k) (hb : b.elem = .real k) (hsa : a.shape = [m, l])
  (hsb : b.shape = [l, n]) (hfit : Fitting k m l n)
include hk ha hb hsa hsb hfit

theorem sums_entry (hi : i < m.toNat) (hj : j < n.toNat) :
    Sums k checked (products k a b l.toNat n.toNat i j) l.toNat (innerProduct (.real k) l.toNat
      (fun p => a.get (entry l.toNat i p)) (fun p => b.get (entry n.toNat p j)) checked) :=
  sums_innerProduct hk (fun _ hp => (exact_of_shape ha hsa hfit.1).get_entry hsa hi hp)
    (fun _ hp => (exact_of_shape hb hsb hfit.2.1).get_entry hsb hp hj)
    (fun _ => ha ▸ a.fits_element _) fun _ => hb ▸ b.fits_element _

theorem matmul_ends : Except.Ends
    (fun err => err = .arith .overflow ∧ checked ∧
      ¬∀ i < m.toNat, ∀ j < n.toNat, Steady k (products k a b l.toNat n.toNat i j) l.toNat)
    (fun out => out.1 = [m, n] ∧ Filled (.real k) (m.toNat * n.toNat)
        (fun q x => x = productEntry k a b l.toNat n.toNat q) (m.toNat * n.toNat) out.2 ∧
      (checked → ∀ i < m.toNat, ∀ j < n.toNat, Steady k (products k a b l.toNat n.toNat i j) l.toNat))
    (a.matmul b checked) := by
  have hsize : m.toNat * n.toNat * (ElemKind.real k).size < 2 ^ 63 := hfit.2.2
  have hroom : m.toNat * n.toNat * (ElemKind.real k).size < 2 ^ 64 := hsize.trans (by decide)
  have hcells : m.toNat * n.toNat < 2 ^ 64 := lt_of_mul_size hroom
  simp only [matmul, hsa, hsb, ha, if_true, Word.mul_of_lt hcells, Word.mul_of_lt hroom, zeroed_of_lt hsize,
    Except.ok_bind]
  -- the rows before the current one are done, and in it the entries before the current one
  refine .bind (loop_ends (I := fun i out => Filled (.real k) (m.toNat * n.toNat)
      (fun q x => x = productEntry k a b l.toNat n.toNat q) (i * n.toNat) out ∧
      (checked → ∀ i' < i, ∀ j < n.toNat, Steady k (products k a b l.toNat n.toNat i' j) l.toNat))
    ⟨by rw [Nat.zero_mul]; exact filled_zeros, fun _ _ hi => absurd hi (Nat.not_lt_zero _)⟩ (Nat.zero_add _)
      fun i hi out hout => ?_)
    fun out hout => ⟨rfl, hout⟩
  refine Except.Ends.mono (loop_ends (I := fun j out => Filled (.real k) (m.toNat * n.toNat)
      (fun q x => x = productEntry k a b l.toNat n.toNat q) (i * n.toNat + j) out ∧
      (checked → ∀ j' < j, Steady k (products k a b l.toNat n.toNat i j') l.toNat))
    ⟨hout.1, fun _ _ hj => absurd hj (Nat.not_lt_zero _)⟩ (Nat.zero_add _) fun j hj out' hout' =>
      ?_) fun out' hout' => ?_
  · have hsum : Sums k checked _ _ _ := sums_entry hk ha hb hsa hsb hfit hi hj
    rw [entry_eq hi hj hcells]
    cases hx : innerProduct (.real k) l.toNat (fun p => a.get (entry l.toNat i p))
      (fun p => b.get (entry n.toNat p j))
        checked with
    | error err =>
      rw [hx] at hsum
      exact ⟨hsum.1, hsum.2.1, fun hall => hsum.2.2 (hall i hi j hj)⟩
    | ok x =>
      rw [hx] at hsum
      have hentry : x = productEntry k a b l.toNat n.toNat (i * n.toNat + j) := by
        rw [productEntry, (cell_div hj).1, (cell_div hj).2]
        exact hsum.1
      obtain ⟨out'', hset, hfilled⟩ := hout'.1.setElem (cell_lt hi hj) hroom hentry
      show Except.Ends _ _ (setElem (.real k) out' (i * n.toNat + j) x)
      rw [hset]
      refine ⟨hfilled, fun hc j' hj' => ?_⟩
      rcases Nat.lt_succ_iff_lt_or_eq.1 hj' with hj' | rfl
      · exact hout'.2 hc j' hj'
      · exact hsum.2 hc
  · refine ⟨by rw [Nat.succ_mul]; exact hout'.1, fun hc i' hi' => ?_⟩
    rcases Nat.lt_succ_iff_lt_or_eq.1 hi' with hi' | rfl
    · exact hout.2 hc i' hi'
    · exact hout'.2 hc

end

/-! ## Exact results -/

/-- A word of an exact result: that of its residue, and of the result itself where it was checked. -/
def Stands (k : Kind) (checked : Bool) (r : UInt64) (v : Int) : Prop :=
  k.Represents r v ∧ (checked → k.toInt r = v)

theorem stands_wrap (hk : k.isInt) (h : checked → k.inRange v) : Stands k checked (k.wrap v) v :=
  ⟨Kind.represents_wrap hk v, fun hc => (Kind.represents_wrap hk v).toInt_eq hk (h hc)⟩

/-- What a loop that adds up `n` terms answers. -/
def Reduces (k : Kind) (checked : Bool) (terms : Nat → Int) (n : Nat) (out : Except TensorError Elem) : Prop :=
  if checked ∧ ¬Steady k terms n then out = .error (.arith .overflow)
  else ∃ r, out = .ok (.real r) ∧ Stands k checked r (∑ i ∈ Finset.range n, terms i)

theorem reduces_of_sums (hk : k.isInt) (h : Sums k checked terms n out) : Reduces k checked terms n out := by
  unfold Reduces
  cases out with
  | error err =>
    obtain ⟨rfl, hc, hsteady⟩ := h
    rw [if_pos ⟨hc, hsteady⟩]
  | ok acc =>
    obtain ⟨rfl, hsteady⟩ := h
    rw [if_neg fun hn => hn.2 (hsteady hn.1)]
    exact ⟨_, rfl, stands_wrap hk fun hc => (hsteady hc).inRange_sum⟩

/-- What the product of an `m × l` and an `l × n` matrix is. -/
def Multiplies (k : Kind) (checked : Bool) (a b : View) (m l n : UInt64)
    (out : Except TensorError (Shape × Bytes)) : Prop :=
  if checked ∧ ¬∀ i < m.toNat, ∀ j < n.toNat, Steady k (products k a b l.toNat n.toNat i j) l.toNat then
    out = .error (.arith .overflow)
  else ∃ data, out = .ok ([m, n], data) ∧ data.size = m.toNat * n.toNat * k.size ∧
    ∀ (i : Fin m.toNat) (j : Fin n.toNat), ∃ r, elemAt (.real k) data (i * n.toNat + j) = .real r ∧
      Stands k checked r ((a.matrix k m.toNat l.toNat * b.matrix k l.toNat n.toNat) i j)

section
variable (hk : k.isInt) {a b : View} (ha : a.elem = .real k) (hb : b.elem = .real k) (hsa : a.shape = [m, l])
  (hsb : b.shape = [l, n]) (hfit : Fitting k m l n)
include hk ha hb hsa hsb hfit

theorem multiplies_matmul : Multiplies k checked a b m l n (a.matmul b checked) := by
  have hends : Except.Ends _ _ (a.matmul b checked) := matmul_ends hk ha hb hsa hsb hfit
  unfold Multiplies
  cases hout : a.matmul b checked with
  | error err =>
    rw [hout] at hends
    obtain ⟨rfl, hc, hsteady⟩ := hends
    rw [if_pos ⟨hc, hsteady⟩]
  | ok out =>
    rw [hout] at hends
    obtain ⟨shape, data⟩ := out
    obtain ⟨rfl, hfilled, hsteady⟩ := hends
    rw [if_neg fun hn => hn.2 (hsteady hn.1)]
    refine ⟨data, rfl, hfilled.size, fun i j => ?_⟩
    have hcell : i * n.toNat + j < m.toNat * n.toNat := cell_lt i.isLt j.isLt
    refine ⟨_, hfilled.elemAt (fun q x hx => hx ▸ k.canonical_of_canonical _) hcell, ?_⟩
    rw [(cell_div j.isLt).1, (cell_div j.isLt).2, mul_apply]
    exact stands_wrap hk fun hc => (hsteady hc i i.isLt j j.isLt).inRange_sum

/-- A wrapped product is filled with wrapped entries. -/
theorem matmul_filled : ∃ data, a.matmul b false = .ok ([m, n], data) ∧ Filled (.real k) (m.toNat * n.toNat)
    (fun q x => x = productEntry k a b l.toNat n.toNat q) (m.toNat * n.toNat) data := by
  have hends : Except.Ends _ _ (a.matmul b false) := matmul_ends hk ha hb hsa hsb hfit
  cases hout : a.matmul b false with
  | error err =>
    rw [hout] at hends
    cases hends.2.1
  | ok out =>
    rw [hout] at hends
    obtain ⟨shape, data⟩ := out
    obtain ⟨rfl, hfilled, -⟩ := hends
    exact ⟨data, rfl, hfilled⟩

/-- A wrapped product is a matrix that agrees with the exact one modulo the width. -/
theorem matmul_modEq :
    ∃ v : View, v.elem = .real k ∧ v.shape = [m, n] ∧ a.matmul b false = .ok (v.shape, v.data) ∧
      ∀ i j, v.matrix k m.toNat n.toNat i j ≡
        (a.matrix k m.toNat l.toNat * b.matrix k l.toNat n.toNat) i j [ZMOD 2 ^ k.width] := by
  have hmul : Multiplies k false a b m l n (a.matmul b false) := multiplies_matmul hk ha hb hsa hsb hfit
  rw [Multiplies, if_neg (by simp)] at hmul
  obtain ⟨data, hout, hsize, hentries⟩ := hmul
  have hbytes : m.toNat * n.toNat * k.size < 2 ^ 64 := hfit.2.2.trans (by decide)
  have hvolume : Shape.volume [m, n] = m.toNat * n.toNat := by simp [Shape.volume]
  have hdata : data.size = Word.mul (Shape.count [m, n]) (ElemKind.real k).size := by
    rw [Shape.count_of_lt (hvolume ▸ lt_of_mul_size (e := .real k) hbytes), hvolume, hsize]
    exact (Word.mul_of_lt hbytes).symm
  refine ⟨⟨.real k, [m, n], data, hdata⟩, rfl, rfl, hout, fun i j => ?_⟩
  obtain ⟨r, hr, hstands⟩ := hentries i j
  rw [matrix, element, hr]
  exact hstands.1.modEq

end

theorem matmul_congr (hk : k.isInt) {a b a' b' : View} (ha : a.elem = .real k) (hb : b.elem = .real k)
    (ha' : a'.elem = .real k) (hb' : b'.elem = .real k) (hsa : a.shape = [m, l]) (hsb : b.shape = [l, n])
    (hsa' : a'.shape = [m, l']) (hsb' : b'.shape = [l', n]) (hfit : Fitting k m l n) (hfit' : Fitting k m l' n)
    (h : ∀ i j, (a.matrix k m.toNat l.toNat * b.matrix k l.toNat n.toNat) i j ≡
      (a'.matrix k m.toNat l'.toNat * b'.matrix k l'.toNat n.toNat) i j [ZMOD 2 ^ k.width]) :
    a.matmul b false = a'.matmul b' false := by
  obtain ⟨data, hout, hfilled⟩ := matmul_filled hk ha hb hsa hsb hfit
  obtain ⟨data', hout', hfilled'⟩ := matmul_filled hk ha' hb' hsa' hsb' hfit'
  rw [hout, hout']
  refine congrArg (fun d => Except.ok ([m, n], d)) (hfilled.unique hfilled' fun q hq x x' hx hx' => ?_)
  rw [hx, hx']
  refine congrArg Elem.real (Kind.wrap_congr hk ?_)
  have hpos : 0 < n.toNat := Nat.pos_of_ne_zero fun h0 => by simp [h0] at hq
  have hij := h ⟨q / n.toNat, Nat.div_lt_of_lt_mul (Nat.mul_comm _ _ ▸ hq)⟩ ⟨q % n.toNat, Nat.mod_lt q hpos⟩
  rwa [mul_apply, mul_apply] at hij

theorem matmul_assoc (hk : k.isInt) {a b c : View} (ha : a.elem = .real k) (hb : b.elem = .real k)
    (hc : c.elem = .real k) (hsa : a.shape = [m, l]) (hsb : b.shape = [l, o]) (hsc : c.shape = [o, n])
    (hab : Fitting k m l o) (hbc : Fitting k l o n) (hleft : Fitting k m o n) (hright : Fitting k m l n) :
    ∃ ab bc : View, a.matmul b false = .ok (ab.shape, ab.data) ∧ b.matmul c false = .ok (bc.shape, bc.data) ∧
      ab.elem = .real k ∧ bc.elem = .real k ∧
      ∃ out, ab.matmul c false = .ok out ∧ a.matmul bc false = .ok out := by
  obtain ⟨ab, heab, hsab, houtab, hmab⟩ := matmul_modEq hk ha hb hsa hsb hab
  obtain ⟨bc, hebc, hsbc, houtbc, hmbc⟩ := matmul_modEq hk hb hc hsb hsc hbc
  obtain ⟨v, -, -, hv, -⟩ := matmul_modEq hk heab hc hsab hsc hleft
  refine ⟨ab, bc, houtab, houtbc, heab, hebc, _, hv,
    hv ▸ (matmul_congr hk heab hc ha hebc hsab hsc hsa hsbc hleft hright ?_).symm⟩
  intro i j
  calc (ab.matrix k m.toNat o.toNat * c.matrix k o.toNat n.toNat) i j
    _ ≡ (a.matrix k m.toNat l.toNat * b.matrix k l.toNat o.toNat * c.matrix k o.toNat n.toNat) i j
        [ZMOD 2 ^ k.width] := by
      rw [Matrix.mul_apply, Matrix.mul_apply]
      exact Int.ModEq.sum fun q _ => (hmab i q).mul_right _
    _ ≡ (a.matrix k m.toNat l.toNat * bc.matrix k l.toNat n.toNat) i j [ZMOD 2 ^ k.width] := by
      rw [Matrix.mul_assoc, Matrix.mul_apply, Matrix.mul_apply]
      exact Int.ModEq.sum fun q _ => (hmbc q j).symm.mul_left _

/-- Reductions over integers are exact up to the width, and checked ones are exact, when the buffers hold
all elements; sums of all elements succeed only then. -/
theorem integer_reductions_exact (hk : k.isInt) {a b : View} (ha : a.elem = .real k) (hb : b.elem = .real k)
    (checked : Bool) :
    (a.Whole → Reduces k checked (fun i => (a.element i).toInt k) a.length (a.sum checked)) ∧
      (a.shape = b.shape → a.Whole → Reduces k checked
        (fun i => (a.element i).toInt k * (b.element i).toInt k) a.length (a.dot b checked)) ∧
      (∀ m l n, a.shape = [m, l] → b.shape = [l, n] → Fitting k m l n →
        Multiplies k checked a b m l n (a.matmul b checked)) ∧
      (∀ (c : View) m l o n, c.elem = .real k → a.shape = [m, l] → b.shape = [l, o] → c.shape = [o, n] →
        Fitting k m l o → Fitting k l o n → Fitting k m o n → Fitting k m l n →
        ∃ ab bc : View, a.matmul b false = .ok (ab.shape, ab.data) ∧ b.matmul c false = .ok (bc.shape, bc.data) ∧
          ab.elem = .real k ∧ bc.elem = .real k ∧
          ∃ out, ab.matmul c false = .ok out ∧ a.matmul bc false = .ok out) ∧
      (∀ r, a.sum checked = .ok r → a.Whole) ∧ ∀ r, a.dot b checked = .ok r → a.Whole := by
  refine ⟨fun hwhole => ?_, fun hs hwhole => ?_, fun m l n hsa hsb hfit =>
    multiplies_matmul hk ha hb hsa hsb hfit,
    fun c m l o n hc hsa hsb hsc => matmul_assoc hk ha hb hc hsa hsb hsc, fun r hr => ?_, fun r hr => ?_⟩
  · rw [sum, ha]
    exact reduces_of_sums hk (sums_loop (adds_element hk ha hwhole))
  · have hlength : b.length = a.length := congrArg Shape.count hs.symm
    have hwhole' : b.Whole := whole_iff.2 (by rw [hlength, hb, ← ha]; exact whole_iff.1 hwhole)
    rw [dot, sameShape, if_pos hs, Except.ok_bind, ha]
    exact reduces_of_sums hk (sums_innerProduct hk (fun _ => hwhole.get) (fun _ hi => hwhole'.get (hlength ▸ hi))
      (fun i => ha ▸ a.fits_element i) fun i => hb ▸ b.fits_element i)
  · exact whole_of_loop hr fun acc i acc' hstep => (Except.bind_eq_ok.1 hstep).imp fun x hx => hx.1
  · obtain ⟨⟨⟩, -, hr⟩ := Except.bind_eq_ok.1 hr
    exact whole_of_loop hr fun acc i acc' hstep => (Except.bind_eq_ok.1 hstep).imp fun x hx => hx.1

/-- The square of a matrix, where a product is out of range. -/
theorem integer_reductions_exact_square :
    let v : View := ⟨.real .i8, [2, 2], #[100, 1, 1, 100], rfl⟩
    Multiplies .i8 true v v 2 2 2 (.error (.arith .overflow)) ∧
      Multiplies .i8 false v v 2 2 2 (.ok ([2, 2], #[17, 200, 200, 17])) := by
  intro v
  have hchecked : v.matmul v true = .error (.arith .overflow) := by decide
  have hwrapped : v.matmul v false = .ok ([2, 2], #[17, 200, 200, 17]) := by decide
  rw [← hchecked, ← hwrapped]
  exact ⟨(integer_reductions_exact rfl rfl rfl true).2.2.1 2 2 2 rfl rfl (by decide),
    (integer_reductions_exact rfl rfl rfl false).2.2.1 2 2 2 rfl rfl (by decide)⟩

/-- The product of two matrices without elements has `2 ^ 64` of them, which is no element as a word: its
first entry has no place. And `2 ^ 61` elements of 8 bytes have no bytes: no sum reads the first. -/
theorem vast_product_crashes :
    ((of? (.real .i8) [0x100000000, 0] #[]).bind fun a => (of? (.real .i8) [0, 0x100000000] #[]).map fun b =>
      (decide a.Whole, decide b.Whole, a.matmul b false)) = some (true, true, .error .crash) ∧
    (of? (.real .i64) [0x2000000000000000] #[]).map (fun v => (v.sum false, v.dot v false)) =
      some (.error .crash, .error .crash) :=
  ⟨by decide +kernel, by decide +kernel⟩

end View

end NumericEngine
