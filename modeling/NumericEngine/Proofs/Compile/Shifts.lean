import NumericEngine.Engine.Invoke
import NumericEngine.Proofs.Exec.Frame
import NumericEngine.Proofs.Lowering.Invariant
import NumericEngine.Proofs.Scalar.Conversion

/-!
# Checked shifts

The amount of a shift is converted to the type of the number before it is
checked. So a checked shift is decided by the residue of its amount modulo the
width of that type: an amount that the type cannot hold may pass.
-/

namespace NumericEngine

namespace Scalar

/-- The number that a word stands for, shifted by `s` places. -/
def ShiftedBy (op : ArithOp) (k : Kind) (a : UInt64) (s : Nat) (r : UInt64) : Prop :=
  if op = .shl then k.Represents r (k.toInt a * 2 ^ s) else k.Canonical r ∧ k.toInt r = k.toInt a / 2 ^ s

variable {k : Kind} {a b : UInt64}

theorem inRange_of_lt_width {s : Nat} (hs : s < k.width) : k.inRange s := by
  have hmax : k.minInt ≤ 0 ∧ (k.width : Int) - 1 ≤ k.maxInt := by
    cases k <;> decide
  simp only [Kind.inRange, Bool.and_eq_true, decide_eq_true_eq]
  omega

theorem checked_shift (hop : op = .shl ∨ op = .shr) (hk : k.isInt) (ha : k.Canonical a) (b : UInt64) :
    binary op k a b true = .error .overflow ∧ (k.toInt b < 0 ∨ k.width ≤ k.toInt b) ∨
      ∃ (s : Nat) (r : UInt64), k.toInt b = s ∧ s < k.width ∧ binary op k a b true = .ok r ∧
      ShiftedBy op k a s r := by
  have hbinary : binary op k a b true =
      if k.toInt b < 0 ∨ k.width ≤ k.toInt b then .error .overflow else .ok (shift op k a b) := by
    rw [binary_of_isInt hk]
    rcases hop with rfl | rfl <;> simp [intBinary]
  rw [hbinary]
  split
  · exact .inl ⟨rfl, ‹_›⟩
  · obtain ⟨s, hs⟩ := Int.eq_ofNat_of_zero_le (show 0 ≤ k.toInt b by omega)
    have hlt : s < k.width := by omega
    have hplaces : (k.toInt b % k.width).toNat = s := by
      rw [hs, ← Int.natCast_emod, Int.toNat_natCast, Nat.mod_eq_of_lt hlt]
    refine .inr ⟨s, _, hs, hlt, rfl, ?_⟩
    rcases hop with rfl | rfl
    · exact hplaces ▸ shift_left hk a b
    · exact hplaces ▸ shift_right hk ha b

end Scalar

namespace Exec

open Ir (Instr)
open Lowering (Builder Ready expr)
open Lowering.Build

variable {L R : Kind} {op : ArithOp} {b b' : Builder}

/-- What the code of a checked shift by the amount `v` comes to: the number shifted by the one amount below
its width that is congruent to `v`, or an overflow where there is none. -/
def ShiftOutcome (op : ArithOp) (k : Kind) (a : UInt64) (v : Int) (d : Reg) (out : Except Fault Frame) : Prop :=
  (∃ s : Nat, s < k.width ∧ v ≡ s [ZMOD 2 ^ k.width] ∧
    ∃ g r, out = .ok g ∧ g.get d = .ok (.scalar (.ofKind k) r) ∧ Scalar.ShiftedBy op k a s r) ∨
  (∀ s : Nat, s < k.width → ¬v ≡ s [ZMOD 2 ^ k.width]) ∧ out = .error .overflow

/-- An amount that the kind can hold is checked as it is. -/
theorem ShiftOutcome.overflow_iff (h : ShiftOutcome op L a v d out) (hk : L.isInt) (hv : L.inRange v) :
    out = .error .overflow ↔ v < 0 ∨ L.width ≤ v := by
  rcases h with ⟨s, hs, hmod, g, r, rfl, -⟩ | ⟨hnone, rfl⟩
  · have heq := Kind.eq_of_modEq hk hv (Scalar.inRange_of_lt_width hs) hmod
    exact ⟨nofun, fun hout => by omega⟩
  · refine ⟨fun _ => ?_, fun _ => rfl⟩
    by_contra hin
    have hnat : v = v.toNat := by omega
    exact hnone v.toNat (by omega) (hnat ▸ .refl _)

theorem shift_outcome (hop : op = .shl ∨ op = .shr) (hk : L.isInt) {frame : Frame}
    (hx : frame.get x = .ok (.scalar (.ofKind L) a)) (ha : L.Canonical a)
    (hz : frame.get z = .ok (.scalar (.ofKind L) w)) (hw : L.Represents w v)
    (hd : d.index.toNat < frame.regs.size) (m : Ir.Module) (f : Ir.Function) :
    ShiftOutcome op L a v d (execInstr m f frame (.define d (.binary op L x z true))) := by
  have hexec : execInstr m f frame (.define d (.binary op L x z true)) =
      Value.arith (Scalar.binary op L a w true) >>= fun r => frame.set d (.ofScalar L r) := by
    simp only [execInstr, eval, hx, hz, Except.ok_bind, Value.asBits, Value.bits?, Value.expect]
    cases Scalar.binary op L a w true <;> rfl
  rcases Scalar.checked_shift hop hk ha w with ⟨herror, hout⟩ | ⟨s, r, hs, hlt, hok, hr⟩
  · refine .inr ⟨fun s hs hmod => ?_, by rw [hexec, herror]; rfl⟩
    have heq := Kind.eq_of_modEq hk hw.inRange (Scalar.inRange_of_lt_width hs) (hw.modEq.trans hmod)
    omega
  · have hset : frame.set d (.ofScalar L r) = .ok (frame.put d (.ofScalar L r)) := Frame.set_eq_ok.2 ⟨hd, rfl⟩
    refine .inl ⟨s, hlt, hs ▸ hw.modEq.symm, _, r, by rw [hexec, hok]; exact hset, ?_, hr⟩
    rw [Frame.get_of_set_self hset, Value.ofScalar, Scalar.canonical_binary hok]

theorem convertTo_ok {e : TExpr} (ht : e.ty = .ofKind R)
    (h : expr (Typing.convertTo e (.ofKind L)) b = .ok (z, b')) :
    ∃ y b₁, expr e b = .ok (y, b₁) ∧ (R = L ∧ z = y ∧ b' = b₁ ∨
      R ≠ L ∧ define (.ofKind L) (.convert R L y) b₁ = .ok (z, b')) := by
  by_cases heq : R = L
  · subst heq
    rw [Typing.convertTo, if_pos ht] at h
    exact ⟨z, b', h, .inl ⟨rfl, rfl, rfl⟩⟩
  · have hne : Ty.ofKind R ≠ .ofKind L := fun h => heq (by simpa using congrArg Ty.kind? h)
    rw [Typing.convertTo, if_neg (ht ▸ hne), expr] at h
    obtain ⟨y, b₁, hy, hconv⟩ := bind_ok.1 h
    simp only [Lowering.convert, ht, if_neg hne, Ty.kind?_ofKind] at hconv
    exact ⟨y, b₁, hy, .inr ⟨heq, hconv⟩⟩

/-- The code from one builder to another, in the block that the first stands in. -/
def Emits (b : Builder) (code : List Instr) (b' : Builder) : Prop :=
  ∃ id is, b.current = some id ∧ b.body id.index.toNat = some (is, none) ∧
    b'.body = b.body.set id.index.toNat (is ++ code, none)

theorem shift_rule (hop : op = .shl ∨ op = .shr) (hL : L.isInt) (hR : R.isInt) {l r : TExpr}
    (hl : l.ty = .ofKind L) (hr : r.ty = .ofKind R) (span : Source.Span) :
    Typing.binary (.arith op) l r true span =
      .ok (.mk (.ofKind L) (.arith op l (Typing.convertTo r (.ofKind L)) true) span) := by
  have hcontainer (k : Kind) : (Ty.ofKind k).isContainer = false := by
    cases k <;> rfl
  have hsame : Typing.convertTo l (.ofKind L) = l := if_pos hl
  rcases hop with rfl | rfl <;> simp [Typing.binary, Typing.arith, Typing.scalarArith, Typing.scalarArithType,
    hl, hr, hcontainer, Ty.isInt, hL, hR, hsame]

theorem define_emits {id : BlockId} (hid : b.current = some id) (hd : define ty rhs b = .ok (d, b')) :
    Registered ty b d b' ∧ Emitted [.define d rhs] b b' := by
  obtain ⟨d', b'', hrun, hr, he, -⟩ := define_emitted ty rhs hid
  cases hd.symm.trans hrun
  exact ⟨hr, he⟩

/-- A checked shift is decided by the residue of its amount in the type of the number. -/
theorem checked_shift_by_residue (hop : op = .shl ∨ op = .shr) (hL : L.isInt) (hR : R.isInt) {l r : TExpr}
    (hl : l.Typed Δ V) (hr : r.Typed Δ V) (htl : l.ty = .ofKind L) (htr : r.ty = .ofKind R) (span : Source.Span) :
    ∃ e, Typing.binary (.arith op) l r true span = .ok e ∧ e.ty = .ofKind L ∧
      ∀ ps entry b c d b', Ready Δ ps V entry b c → expr e b = .ok (d, b') → b'.Fits →
        ∃ x b₁ y b₂ code, expr l b = .ok (x, b₁) ∧ expr r b₁ = .ok (y, b₂) ∧ Emits b₂ code b' ∧
          ∀ m f (frame : Frame) u w, b'.regTypes.size ≤ frame.regs.size →
            frame.get x = .ok (.scalar (.ofKind L) u) → L.Canonical u →
            frame.get y = .ok (.scalar (.ofKind R) w) → R.Canonical w →
            ShiftOutcome op L u (R.toInt w) d (code.foldlM (execInstr m f) frame) ∧ (L.inRange (R.toInt w) →
              (code.foldlM (execInstr m f) frame = .error .overflow ↔ R.toInt w < 0 ∨ L.width ≤ R.toInt w)) := by
  refine ⟨_, shift_rule hop hL hR htl htr span, rfl, fun ps entry b c d b' hready he hf => ?_⟩
  rw [expr] at he
  obtain ⟨x, b₁, hx, he⟩ := bind_ok.1 he
  obtain ⟨z, b₃, hz, hd⟩ := bind_ok.1 he
  simp only [Ty.kind?_ofKind] at hd
  obtain ⟨y, b₂, hy, hz⟩ := convertTo_ok htr hz
  have hE := hready.env (l.nodes + r.nodes)
  have hc : b.current.isSome = true := by
    obtain ⟨id, hid, -⟩ := hready.current
    rw [hid]
    rfl
  obtain ⟨S₁, ho₁, hr₁⟩ := (Lowering.expr_computes l hl (by simp [Lowering.reading])
    (.inl trivial) b _ hE hc).result hx
  obtain ⟨S₂, ho₂, -⟩ := (Lowering.expr_computes r hr (by simp [Lowering.reading])
    (.inl trivial) b₁ _ (ho₁.env hE) ho₁.going).result hy
  obtain ⟨id, hid⟩ := Option.isSome_iff_exists.1 ho₂.going
  have hemits {code : List Instr} (hf₂ : b₂.Fits) (he : Emitted code b₂ b') : Emits b₂ code b' := by
    have hroom := Nat.le_trans ho₂.le.blockCount hf₂.blocks
    obtain ⟨is, his⟩ := (ho₂.kept hf₂.blocks (ho₁.kept hroom hready.sane)).live ho₂.going
    have hbody := he.body is his
    rw [here_eq hid] at his hbody
    exact ⟨id, is, hid, his, hbody⟩
  rcases hz with ⟨rfl, rfl, rfl⟩ | ⟨-, hz⟩
  · obtain ⟨hreg, he⟩ := define_emits hid hd
    refine ⟨x, b₁, z, b₃, [_], hx, hy, hemits (he.le.fits hf) he, fun m f frame u w hroom hu hcu hw hcw => ?_⟩
    have hd : d.index.toNat < frame.regs.size := by
      have := hreg.index hf
      have := hreg.count
      omega
    have hshift := shift_outcome hop hL hu hcu hw ⟨hcw, Kind.inRange_toInt hL hcw, .refl _⟩ hd m f
    exact ⟨by simpa using hshift, ShiftOutcome.overflow_iff (by simpa using hshift) hL⟩
  · obtain ⟨hreg₃, he₃⟩ := define_emits hid hz
    obtain ⟨hreg, he⟩ := define_emits (he₃.current.trans hid) hd
    have hf₃ := he.le.fits hf
    have hindex₃ := hreg₃.index hf₃
    refine ⟨x, b₁, y, b₂, _, hx, hy, hemits (he₃.le.fits hf₃) (he₃.trans he),
      fun m f frame u w hroom hu hcu hw hcw => ?_⟩
    have hsizes : d.index.toNat < frame.regs.size ∧ z.index.toNat < frame.regs.size := by
      have := hreg.index hf
      have := hreg.count
      have := hreg₃.count
      omega
    -- the register of the converted amount is new, so the number is still in its own
    have hne : x ≠ z := by
      rintro rfl
      have := (hr₁.2 ((ho₂.le.trans he₃.le).fits hf₃)).2
      have := ho₂.le.regCount
      omega
    have hamount := Scalar.represents_convert (.inl hR) hL hcw
    obtain ⟨g, hset⟩ : ∃ g, frame.set z (.ofScalar L (Scalar.convert R L w)) = .ok g :=
      ⟨_, Frame.set_eq_ok.2 ⟨hsizes.2, rfl⟩⟩
    have hconv : execInstr m f frame (.define z (.convert R L y)) = .ok g := by
      simp only [execInstr, eval, hw, Except.ok_bind, Value.asBits, Value.bits?, Value.expect]
      exact hset
    have hshift := shift_outcome hop hL ((Frame.get_of_set_ne hset hne).trans hu) hcu
      (by rw [Frame.get_of_set_self hset, Value.ofScalar, show L.canonical _ = _ from hamount.canonical]) hamount
      (show d.index.toNat < g.regs.size by rw [(Frame.size_of_set hset).1]; exact hsizes.1) m f
    exact ⟨by simpa [hconv] using hshift, ShiftOutcome.overflow_iff (by simpa [hconv] using hshift) hL⟩

/-- The builder at its entry. -/
def blankStart : Builder :=
  { locals := #[], types := {}, constants := {}, blocks := #[{ label := "entry" }], current := some ⟨0⟩ }

/-- A function that returns a byte. -/
def blank : Typing.Context where
  binding _ := none
  sig _ := none
  taken _ := False
  ret := .ofKind .i8

theorem body_blankStart (h : blankStart.body i = some (is, t)) : i = 0 ∧ is = [] ∧ t = none := by
  cases i with
  | zero =>
    cases h
    exact ⟨rfl, rfl, rfl⟩
  | succ i => simp [blankStart, Builder.body] at h

theorem ready_blankStart : Ready blank [] (fun _ => False) (fun _ _ => False) blankStart 0 where
  code :=
    { rank := rfl
      start := by simp
      block := fun hi => by
        obtain ⟨rfl, rfl, rfl⟩ := body_blankStart hi
        exact ⟨by simp, trivial, .of_none (by simp), by simp, by simp, by simp, by simp, by simp, .inl ⟨rfl, rfl⟩⟩
      edge := fun i j ⟨is, t, hi, _⟩ => by simpa using (body_blankStart hi).2.2
      unique := fun i j is js t u hi hj r hr => by
        rw [(body_blankStart hi).2.1] at hr
        cases hr
      below := by
        rintro i r (h | ⟨is, t, hi, hr⟩)
        · exact h.elim
        · rw [(body_blankStart hi).2.1] at hr
          cases hr
      closed := by simp }
  loops := nofun
  distinct := .nil
  headers := nofun
  locals := nofun
  nonempty := Nat.one_pos
  taken _ _ := rfl
  current := ⟨⟨0⟩, rfl, rfl⟩
  unfinished := ⟨[], rfl⟩
  entered := .inl rfl
  apart := nofun
  inside := nofun
  targets := nofun
  values := nofun
  slots := nofun
  settled := nofun

/-- A byte is shifted by 256 as by nothing. -/
theorem checked_shift_by_residue_wrapped : ∃ e b' x b₁ y b₂ code,
    Typing.binary (.arith .shl) (.const (.ofScalar .i8 1) {}) (.const (.ofScalar .i64 256) {}) true {} = .ok e ∧
    expr e blankStart = .ok (⟨3⟩, b') ∧ expr (.const (.ofScalar .i8 1) {}) blankStart = .ok (x, b₁) ∧
    expr (.const (.ofScalar .i64 256) {}) b₁ = .ok (y, b₂) ∧ Emits b₂ code b' ∧
    ∀ m f, ShiftOutcome .shl .i8 1 256 ⟨3⟩ (code.foldlM (execInstr m f)
      ⟨"blank", #[some (.ofScalar .i8 1), some (.ofScalar .i64 256), none, none], #[]⟩) := by
  have hconst (k : Kind) (w : UInt64) :
      (TExpr.const (.ofScalar k w) {}).Typed blank fun _ => False :=
    TExpr.typed_const (Value.valid_ofScalar k w) rfl _
  obtain ⟨e, he, -, h⟩ := checked_shift_by_residue (L := .i8) (R := .i64) (.inl rfl) rfl rfl (hconst .i8 1)
    (hconst .i64 256) rfl rfl {}
  cases he
  have hcode : (expr (.mk (.ofKind .i8) (.arith .shl (.const (.ofScalar .i8 1) {})
      (Typing.convertTo (.const (.ofScalar .i64 256) {}) (.ofKind .i8)) true) {}) blankStart).toOption.map
        (fun p => (p.1, p.2.types, p.2.constants.size, p.2.regTypes.size, p.2.slotTypes.size, p.2.blocks.size)) =
      some (⟨3⟩, ⟨#[.ofKind .i8, .ofKind .i64]⟩, 2, 4, 0, 1) := by decide +kernel
  obtain ⟨⟨d, b'⟩, hd, hsizes⟩ := Option.map_eq_some_iff.1 hcode
  have hexpr := Except.toOption_eq_some hd
  simp only [Prod.mk.injEq] at hsizes
  obtain ⟨rfl, htypes, hconstants, hregs, hslots, hblocks⟩ := hsizes
  have hf : b'.Fits := by
    refine ⟨by rw [htypes]; decide, by omega, by omega, by omega, by omega, fun id decl hid => ?_⟩
    rw [htypes] at hid
    have hmem := Array.mem_of_getElem? hid
    simp [Ty.ofKind] at hmem
  obtain ⟨x, b₁, y, b₂, code, hx, hy, hemits, hrun⟩ := h _ _ _ _ _ _ ready_blankStart hexpr hf
  refine ⟨_, b', x, b₁, y, b₂, code, rfl, hexpr, hx, hy, hemits, fun m f => ?_⟩
  cases hx
  cases hy
  exact (hrun m f _ 1 256 (by rw [hregs]; exact Nat.le_refl 4) rfl rfl rfl rfl).1

end Exec

/-- Shifts a byte by a long number. -/
def shiftByLong : Source.Program where
  functions := [
    { name := "shift", params := [⟨"n", .ofKind .i8, {}⟩, ⟨"amount", .i64, {}⟩], ret := .ofKind .i8,
      body := [.mk (.return
      (some (.mk (.binary (.arith .shl) (.mk (.var "n") {}) (.mk (.var "amount") {}) true) {}))) {}] }]

/-- The amount 256 passes the check. -/
theorem Engine.wide_shift_accepted : Kind.i8.width ≤ Kind.i64.toInt 256 ∧
    ∃ u t, ({} : CompileOptions).compile shiftByLong = .ok u ∧
      invoke ⟨u, { policy := .interpretOnly }⟩ 64 ⟨0⟩ [.ofScalar .i8 1, .ofScalar .i64 256] false
        (newTable ⟨u, { policy := .interpretOnly }⟩) = some (.ok (.ofScalar .i8 1), t) := by
  have hresult : (({} : CompileOptions).compile shiftByLong).toOption.bind (fun u =>
      (invoke ⟨u, { policy := .interpretOnly }⟩ 64 ⟨0⟩ [.ofScalar .i8 1, .ofScalar .i64 256] false
        (newTable ⟨u, { policy := .interpretOnly }⟩)).map (·.1.toOption)) = some (some (.ofScalar .i8 1)) := by
    decide +kernel
  obtain ⟨u, hu, hresult⟩ := Option.bind_eq_some_iff.1 hresult
  obtain ⟨⟨r, t⟩, hrun, hr⟩ := Option.map_eq_some_iff.1 hresult
  cases Except.toOption_eq_some hr
  exact ⟨by decide, u, t, Except.toOption_eq_some hu, hrun⟩

end NumericEngine
