import NumericEngine.Proofs.Tensor.Kernels
import NumericEngine.Proofs.Word.Windows

/-!
# Elements of a buffer

A write changes one element and no other, and a canonical element is read back
from where it was written. So a kernel that goes through the elements of its
operands one by one gives a buffer of the results, or the error of the first
that fails. It does so when the buffers of its operands hold all their elements;
where the length of a buffer has wrapped around, it never succeeds.
-/

namespace NumericEngine

namespace Elem

/-- Whether an element is of the form of a kind, in canonical words. -/
def Canonical : ElemKind → Elem → Prop
  | .real k, real w => k.Canonical w
  | .complex k, complex re im => k.Canonical re ∧ k.Canonical im
  | _, _ => False

theorem canonical_binary (h : binary op e a b checked = .ok x) : Canonical e x := by
  unfold binary at h
  split at h
  · obtain ⟨w, hw, rfl⟩ := Except.map_eq_ok.1 h
    exact Scalar.canonical_binary hw
  · obtain ⟨p, hp, rfl⟩ := Except.map_eq_ok.1 h
    exact Complex.canonical_binary hp
  · cases h

theorem read_bytes (h : Canonical e x) : read e (bytes e x) = x := by
  cases e with
  | real k =>
    cases x with
    | real w => simpa [bytes, read] using Kind.read_bytes h []
    | complex re im => cases h
  | complex k =>
    cases x with
    | real w => cases h
    | complex re im =>
      have hdrop : (k.bytes re ++ k.bytes im).drop k.size = k.bytes im := List.drop_left' (length_leBytes _ _)
      have him := Kind.read_bytes h.2 []
      rw [List.append_nil] at him
      rw [bytes, read, hdrop, Kind.read_bytes h.1, him]

end Elem

namespace View

variable {v : View} {e : ElemKind} {data data' : Bytes} {i j n : Nat} {x : Elem}

/-- The element at an index. -/
def element (v : View) (i : Nat) : Elem := elemAt v.elem v.data i

/-- The buffer holds all elements. -/
def Whole (v : View) : Prop := v.data.size = v.length * v.elem.size

instance (v : View) : Decidable v.Whole := inferInstanceAs (Decidable (_ = _))

theorem whole_iff : v.Whole ↔ v.length * v.elem.size < 2 ^ 64 := by
  rw [Whole, v.size_data]
  exact ⟨fun h => h ▸ Word.mul_lt _ _, fun h => Word.mul_of_lt h⟩

theorem size_bounds (e : ElemKind) : 0 < e.size ∧ e.size ≤ 16 := by
  rcases e with k | k <;> cases k <;> decide

theorem start?_of_le {size : Nat} (h : (i + 1) * e.size ≤ size) (hsize : size < 2 ^ 64) :
    start? e size i = some (i * e.size) := by
  have hle : i * e.size ≤ (i + 1) * e.size := Nat.mul_le_mul_right _ (Nat.le_succ i)
  have hnext : i + 1 ≤ (i + 1) * e.size := Nat.le_mul_of_pos_right _ (size_bounds e).1
  rw [start?, Word.add_of_lt (by omega), Word.mul_of_lt (by omega), Word.mul_of_lt (by omega), if_pos ⟨hle, h⟩]

theorem start?_eq_none {size : Nat} (hle : i * e.size ≤ size) (hlt : size < (i + 1) * e.size)
    (hsize : size < 2 ^ 64) (hi : i + 1 < 2 ^ 64) : start? e size i = none := by
  have hbounds := size_bounds e
  rw [Nat.succ_mul] at hlt
  rw [start?, Word.add_of_lt hi, Word.mul_of_lt (by omega), if_neg]
  rw [Word.mul, Nat.succ_mul]
  omega

theorem get_of_le (h : (i + 1) * v.elem.size ≤ v.data.size) : v.get i = .ok (v.element i) := by
  rw [get, readElem, start?_of_le h (v.size_data ▸ Word.mul_lt _ _)]
  rfl

theorem Whole.get (h : v.Whole) (hi : i < v.length) : v.get i = .ok (v.element i) :=
  get_of_le (h ▸ Nat.mul_le_mul_right _ hi)

/-- Of a buffer whose length has wrapped around, not all elements can be read. -/
theorem whole_of_reads (h : ∀ i < v.length, ∃ x, v.get i = .ok x) : v.Whole := by
  refine whole_iff.2 (Nat.lt_of_not_le fun hover => ?_)
  have hdata : v.data.size < 2 ^ 64 := v.size_data ▸ Word.mul_lt _ _
  have hpos := (size_bounds v.elem).1
  -- the first element that does not end inside the buffer
  have hi : v.data.size / v.elem.size < v.length := (Nat.div_lt_iff_lt_mul hpos).2 (by omega)
  obtain ⟨x, hx⟩ := h _ hi
  rw [View.get, readElem, start?_eq_none (Nat.div_mul_le_self _ _)
    (Nat.lt_mul_of_div_lt (Nat.lt_succ_self _) hpos) hdata (Nat.lt_of_le_of_lt hi v.shape.count_lt)] at hx
  cases hx

/-- A loop that reads an element at each index goes through a whole view only. -/
theorem whole_of_loop {σ : Type} {step : σ → Nat → Except TensorError σ} {s t : σ}
    (h : loop step v.length 0 s = .ok t) (hstep : ∀ s j s', step s j = .ok s' → ∃ x, v.get j = .ok x) : v.Whole :=
  whole_of_reads fun j hj =>
    let ⟨s, s', hs⟩ := steps_of_loop h j (Nat.zero_le j) (by omega)
    hstep s j s' hs

/-! ## Writes -/

theorem setElem_of_le (h : (i + 1) * e.size ≤ data.size) (hdata : data.size < 2 ^ 64) (x : Elem) :
    setElem e data i x = .ok (data.overwrite (i * e.size) (Elem.bytes e x)) := by
  rw [setElem, start?_of_le h hdata]

theorem window_overwrite_bytes (h : (i + 1) * e.size ≤ data.size) (x : Elem) :
    (data.overwrite (i * e.size) (Elem.bytes e x)).window (i * e.size) e.size = Elem.bytes e x := by
  have hroom : i * e.size + (Elem.bytes e x).length ≤ data.size := by rwa [Elem.length_bytes, ← Nat.succ_mul]
  have hwindow := Bytes.window_overwrite hroom
  rwa [Elem.length_bytes] at hwindow

/-- A write leaves all other elements alone. -/
theorem window_overwrite_other (hij : j ≠ i) (x : Elem) :
    (data.overwrite (i * e.size) (Elem.bytes e x)).window (j * e.size) e.size =
    data.window (j * e.size) e.size := by
  refine Bytes.window_overwrite_apart fun b hle hlt ⟨hle', hlt'⟩ => hij ?_
  rw [Elem.length_bytes] at hlt
  have hi : b / e.size = i := Nat.div_eq_of_lt_le hle (by rwa [Nat.succ_mul])
  have hj : b / e.size = j := Nat.div_eq_of_lt_le hle' (by rwa [Nat.succ_mul])
  exact hj.symm.trans hi

/-- A buffer for `n` elements, the first `q` of which are as they should be. -/
structure Filled (e : ElemKind) (n : Nat) (R : Nat → Elem → Prop) (q : Nat) (out : Bytes) : Prop where
  size : out.size = n * e.size
  windows : ∀ i < q, ∃ x, R i x ∧ out.window (i * e.size) e.size = Elem.bytes e x

variable {R : Nat → Elem → Prop} {q : Nat} {out : Bytes}

theorem filled_zeros : Filled e n R 0 (Bytes.zeros (n * e.size)) := ⟨Bytes.size_zeros _, nofun⟩

theorem Filled.setElem (h : Filled e n R q out) (hq : q < n) (hn : n * e.size < 2 ^ 64) (hx : R q x) :
    ∃ out', View.setElem e out q x = .ok out' ∧ Filled e n R (q + 1) out' := by
  have hroom : (q + 1) * e.size ≤ out.size := h.size ▸ Nat.mul_le_mul_right _ hq
  refine ⟨_, setElem_of_le hroom (h.size ▸ hn) x, (Bytes.size_overwrite ..).trans h.size, fun i hi => ?_⟩
  rcases Nat.lt_succ_iff_lt_or_eq.1 hi with hi | rfl
  · obtain ⟨y, hy, hwindow⟩ := h.windows i hi
    exact ⟨y, hy, (window_overwrite_other (Nat.ne_of_lt hi) x).trans hwindow⟩
  · exact ⟨x, hx, window_overwrite_bytes hroom x⟩

theorem Filled.elemAt (h : Filled e n R q out) (hR : ∀ i x, R i x → Elem.Canonical e x) (hi : i < q) :
    R i (elemAt e out i) := by
  obtain ⟨x, hx, hwindow⟩ := h.windows i hi
  rw [View.elemAt, hwindow, Elem.read_bytes (hR i x hx)]
  exact hx

/-- The elements determine the buffer. -/
theorem Filled.unique (h : Filled e n R n data) (h' : Filled e n R' n data')
    (hR : ∀ i < n, ∀ x x', R i x → R' i x' → x = x') : data = data' := by
  refine Array.ext_getElem? fun b => ?_
  by_cases hb : b < n * e.size
  · have hpos := (size_bounds e).1
    have hi : b / e.size < n := (Nat.div_lt_iff_lt_mul hpos).2 hb
    obtain ⟨x, hx, hwindow⟩ := h.windows _ hi
    obtain ⟨x', hx', hwindow'⟩ := h'.windows _ hi
    have hsame := hwindow.trans ((hR _ hi x x' hx hx' ▸ hwindow').symm)
    have hbyte := congrArg (fun bs : List UInt8 => bs[b % e.size]?) hsame
    simp only [Bytes.getElem?_window, if_pos (Nat.mod_lt b hpos), Nat.div_add_mod'] at hbyte
    exact hbyte
  · rw [Array.getElem?_eq_none (by rw [h.size]; omega), Array.getElem?_eq_none (by rw [h'.size]; omega)]

/-! ## Kernels on elements -/

/-- The outcome of an operation on `n` elements: the error of the first that fails, or a buffer of `size`
bytes that holds the results. -/
def Pointwise (e : ElemKind) (n size : Nat) (f : Nat → Except ArithError Elem)
    (out : Except TensorError Bytes) : Prop :=
  (∃ i err, i < n ∧ f i = .error err ∧ (∀ j < i, ∃ x, f j = .ok x) ∧ out = .error (.arith err)) ∨
    ∃ data, out = .ok data ∧ data.size = size ∧ ∀ i < n, f i = .ok (elemAt e data i)

theorem pointwise_fill {f : Nat → Except ArithError Elem} {value : Nat → Except TensorError Elem}
    (hvalue : ∀ i < n, value i = arith (f i)) (hf : ∀ i x, f i = .ok x → Elem.Canonical e x)
    (hn : n * e.size < 2 ^ 64) :
    Pointwise e n (n * e.size) f (fill e value n (Bytes.zeros (n * e.size))) := by
  have hfill : Except.Ends (fun err => ∃ i err', i < n ∧ f i = .error err' ∧ (∀ j < i, ∃ x, f j = .ok x) ∧
      err = .arith err') (Filled e n (fun i x => f i = .ok x) n) (fill e value n (Bytes.zeros (n * e.size))) := by
    refine loop_ends filled_zeros (Nat.zero_add n) fun i hi out hout => ?_
    rw [hvalue i hi]
    cases hfi : f i with
    | error err => exact ⟨i, err, hi, hfi, fun j hj => (hout.windows j hj).imp fun x hx => hx.1, rfl⟩
    | ok x =>
      obtain ⟨out', hset, hout'⟩ := hout.setElem hi hn hfi
      show Except.Ends _ _ (setElem e out i x)
      rw [hset]
      exact hout'
  cases hout : fill e value n (Bytes.zeros (n * e.size)) with
  | error err =>
    rw [hout] at hfill
    obtain ⟨i, err', hi, hfi, hbefore, rfl⟩ := hfill
    exact .inl ⟨i, err', hi, hfi, hbefore, rfl⟩
  | ok data =>
    rw [hout] at hfill
    exact .inr ⟨data, rfl, hfill.size, fun i hi => hfill.elemAt hf hi⟩

variable {a b : View} {op : ArithOp} {checked : Bool}

theorem elementwise_of_eq (hs : a.shape = b.shape) : a.elementwise op b checked =
    fill a.elem (fun i => do arith (Elem.binary op a.elem (← a.get i) (← b.get i) checked)) a.length
      (Bytes.zeros a.data.size) := by
  rw [elementwise, sameShape, if_pos hs]
  rfl

theorem elementwise_ne_shapeMismatch (hs : a.shape = b.shape) :
    a.elementwise op b checked ≠ .error (.shapeMismatch expected found) := by
  intro herr
  rw [elementwise_of_eq hs] at herr
  obtain ⟨out, i, hi⟩ := step_of_loop_error herr
  have hread (v : View) : v.get i ≠ .error (.shapeMismatch expected found) := by
    unfold View.get readElem
    split <;> exact nofun
  rcases Except.bind_eq_error.1 hi with hi | ⟨z, -, hset⟩
  · rcases Except.bind_eq_error.1 hi with hi | ⟨x, -, hi⟩
    · exact hread a hi
    · rcases Except.bind_eq_error.1 hi with hi | ⟨y, -, hi⟩
      · exact hread b hi
      · cases hxy : Elem.binary op a.elem x y checked with
        | error err | ok z => rw [hxy] at hi; cases hi
  · unfold setElem at hset
    split at hset <;> cases hset

/-- Kernels on elements act on each element by itself, when the buffers hold all elements; they succeed
only then. -/
theorem kernels_pointwise (op : ArithOp) (a b : View) (checked : Bool) :
    ((∃ expected found, a.elementwise op b checked = .error (.shapeMismatch expected found)) ↔
    a.shape ≠ b.shape) ∧
      (a.shape = b.shape → a.elem = b.elem → a.Whole → Pointwise a.elem a.length a.data.size
        (fun i => Elem.binary op a.elem (a.element i) (b.element i) checked) (a.elementwise op b checked)) ∧
      (∀ factor, a.Whole → Pointwise a.elem a.length a.data.size
        (fun i => Elem.binary .mul a.elem (a.element i) factor checked) (a.scale factor checked)) ∧
      (∀ out, a.elementwise op b checked = .ok out → a.Whole) ∧
      ∀ factor out, a.scale factor checked = .ok out → a.Whole := by
  refine ⟨⟨?_, fun h => ?_⟩, fun hs he ha => ?_, fun factor ha => ?_, fun out hout => ?_,
    fun factor out hout => ?_⟩
  · rintro ⟨expected, found, hout⟩ hs
    exact elementwise_ne_shapeMismatch hs hout
  · exact ⟨a.shape, b.shape, by rw [elementwise, sameShape, if_neg h]; rfl⟩
  · have hlength : b.length = a.length := congrArg Shape.count hs.symm
    have hb : b.Whole := whole_iff.2 (by rw [hlength, ← he]; exact whole_iff.1 ha)
    rw [elementwise_of_eq hs, ha]
    refine pointwise_fill (fun i hi => ?_) (fun i x => Elem.canonical_binary) (whole_iff.1 ha)
    rw [ha.get hi, hb.get (hlength ▸ hi)]
    rfl
  · rw [scale, ha]
    refine pointwise_fill (fun i hi => ?_) (fun i x => Elem.canonical_binary) (whole_iff.1 ha)
    rw [ha.get hi]
    rfl
  · obtain ⟨⟨⟩, -, hfill⟩ := Except.bind_eq_ok.1 hout
    refine whole_of_loop hfill fun out i out' hstep => ?_
    obtain ⟨x, hx, -⟩ := Except.bind_eq_ok.1 hstep
    exact (Except.bind_eq_ok.1 hx).imp fun y hy => hy.1
  · refine whole_of_loop hout fun out i out' hstep => ?_
    obtain ⟨x, hx, -⟩ := Except.bind_eq_ok.1 hstep
    exact (Except.bind_eq_ok.1 hx).imp fun y hy => hy.1

/-- Of two sums out of range the first is reported; wrapped, each has its place. -/
theorem kernels_pointwise_doubled :
    let v : View := ⟨.real .i8, [3], #[1, 100, 100], rfl⟩
    v.elementwise .add v true = .error (.arith .overflow) ∧ v.elementwise .add v false = .ok #[2, 200, 200] ∧
      ∀ i < 3, Elem.binary .add v.elem (v.element i) (v.element i) false =
      .ok (elemAt v.elem #[2, 200, 200] i) := by
  intro v
  have hwrapped : v.elementwise .add v false = .ok #[2, 200, 200] := by decide
  refine ⟨by decide, hwrapped, ?_⟩
  rcases (kernels_pointwise .add v v false).2.1 rfl rfl rfl with ⟨i, err, -, -, -, herr⟩ | ⟨data, hdata, -, hread⟩
  · cases hwrapped.symm.trans herr
  · cases hwrapped.symm.trans hdata
    exact hread

/-- A vector of `2 ^ 61` doubles has no bytes, as a word: it is a view, but no kernel reads its first element. -/
theorem hollow_kernels_crash :
    (of? (.real .f64) [0x2000000000000000] #[]).map (fun v =>
    (v.length, v.elementwise .add v false, v.scale (.real 0) false)) =
      some (0x2000000000000000, .error .crash, .error .crash) := by
  decide +kernel

end View

end NumericEngine
