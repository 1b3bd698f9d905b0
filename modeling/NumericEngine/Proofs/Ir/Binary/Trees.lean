import NumericEngine.Proofs.Ir.Binary.Items
import NumericEngine.Proofs.Value.Typing

/-!
# Reading back what is written: types and values

Types and values nest. A reader that may go as deep as its input is long goes
deep enough, since every level takes a byte.
-/

namespace NumericEngine

open List

mutual
/-- Every primitive within the type has a width that exists. -/
def Ty.PrimsExist : Ty → Prop
  | .prim k w => (Ty.prim k w).kind?.isSome
  | .vector e _ | .tensor e _ | .complex e | .reference e _ => e.PrimsExist
  | .struct fs => Ty.FieldPrimsExist fs
  | .function ps r => Ty.ParamPrimsExist ps ∧ r.PrimsExist
def Ty.ParamPrimsExist : List Ty → Prop
  | [] => True
  | t :: ts => t.PrimsExist ∧ Ty.ParamPrimsExist ts
def Ty.FieldPrimsExist : List (String × Ty) → Prop
  | [] => True
  | (_, t) :: fs => t.PrimsExist ∧ Ty.FieldPrimsExist fs
end

mutual
/-- Every list and text within the type is short enough for its length to be written. -/
def Ty.Short : Ty → Prop
  | .prim .. => True
  | .vector e _ | .complex e | .reference e _ => e.Short
  | .tensor e dims => e.Short ∧ dims.length < 2 ^ 32
  | .struct fs => fs.length < 2 ^ 32 ∧ Ty.ShortFields fs
  | .function ps r => ps.length < 2 ^ 32 ∧ Ty.ShortParams ps ∧ r.Short
def Ty.ShortParams : List Ty → Prop
  | [] => True
  | t :: ts => t.Short ∧ Ty.ShortParams ts
def Ty.ShortFields : List (String × Ty) → Prop
  | [] => True
  | (n, t) :: fs => n.utf8ByteSize < 2 ^ 32 ∧ t.Short ∧ Ty.ShortFields fs
end

mutual
/-- Every list and buffer within the value, and its type, are short enough. -/
def Value.Short : Value → Prop
  | .scalar t _ | .complex t _ _ | .function t _ | .ref t _ => t.Short
  | .tensor t shape data => t.Short ∧ shape.length < 2 ^ 32 ∧ data.size < 2 ^ 32
  | .struct t fs => t.Short ∧ fs.length < 2 ^ 32 ∧ Value.ShortFields fs
def Value.ShortFields : List Value → Prop
  | [] => True
  | v :: vs => v.Short ∧ Value.ShortFields vs
end

theorem Ty.paramPrimsExist_iff : Ty.ParamPrimsExist ts ↔ ∀ t ∈ ts, t.PrimsExist := by
  induction ts with
  | nil => simp [Ty.ParamPrimsExist]
  | cons t ts ih => simp [Ty.ParamPrimsExist, ih]

theorem Ty.fieldPrimsExist_iff : Ty.FieldPrimsExist fs ↔ ∀ f ∈ fs, f.2.PrimsExist := by
  induction fs with
  | nil => simp [Ty.FieldPrimsExist]
  | cons f fs ih => simp [Ty.FieldPrimsExist, ih]

theorem Ty.shortParams_iff : Ty.ShortParams ts ↔ ∀ t ∈ ts, t.Short := by
  induction ts with
  | nil => simp [Ty.ShortParams]
  | cons t ts ih => simp [Ty.ShortParams, ih]

theorem Ty.shortFields_iff : Ty.ShortFields fs ↔ ∀ f ∈ fs, f.1.utf8ByteSize < 2 ^ 32 ∧ f.2.Short := by
  induction fs with
  | nil => simp [Ty.ShortFields]
  | cons f fs ih => simp [Ty.ShortFields, ih, and_assoc]

theorem Value.shortFields_iff : Value.ShortFields vs ↔ ∀ v ∈ vs, v.Short := by
  induction vs with
  | nil => simp [Value.ShortFields]
  | cons v vs ih => simp [Value.ShortFields, ih]

namespace Ir

namespace Binary

theorem types_eq (ts : List Ty) : types ts = ts.flatMap type := by
  induction ts with
  | nil => rfl
  | cons t ts ih => rw [types, ih, flatMap_cons]

theorem fieldTypes_eq (fs : List (String × Ty)) :
    fieldTypes fs = fs.flatMap fun f => text f.1 ++ type f.2 := by
  induction fs with
  | nil => rfl
  | cons f fs ih => rw [fieldTypes, ih, flatMap_cons]

theorem values_eq (vs : List Value) : values vs = vs.flatMap value := by
  induction vs with
  | nil => rfl
  | cons v vs ih => rw [values, ih, flatMap_cons]

theorem length_type_pos (t : Ty) : 0 < (type t).length := by
  cases t <;> simp [type]

theorem length_value_pos (v : Value) : 0 < (value v).length := by
  cases v <;> simp [value]

theorem length_text_pos (s : String) : 0 < (text s).length := by
  simp [text, count]

end Binary

namespace Reader

instance : Codec dim Binary.dim where
  toExact := .of_start <| .bind fun tag => by
    split
    · exact .bind fun _ => .pure rfl
    · exact .pure rfl
    · exact .throw
  read d := by
    cases d with
    | fixed n => exact (reads u8 0).bind (reads u64 n).map
    | dynamic => exact fun _ _ => rfl
  pos d := by cases d <;> simp [Binary.dim]

theorem length_le_flatMap_of_mem (enc : α → List UInt8) {xs : List α} (h : x ∈ xs) :
    (enc x).length ≤ (xs.flatMap enc).length := by
  obtain ⟨before, after, rfl⟩ := append_of_mem h
  simp only [flatMap_append, flatMap_cons, length_append]
  omega

/-! ## Types -/

theorem reads_type (t : Ty) (hp : t.PrimsExist) (hs : t.Short) (hd : (Binary.type t).length ≤ depth) :
    Reads (type depth) (Binary.type t) t := by
  induction depth generalizing t with
  | zero => exact absurd hd (Nat.not_le_of_lt (Binary.length_type_pos t))
  | succ depth ih =>
    cases t with
    | prim k w =>
      refine (reads u8 0).bind ((reads primKind k).bind ?_)
      intro rest offset
      refine bind_ok.2 ⟨_, _, reads u8 w rest offset, ?_⟩
      have hp : (Ty.prim k w).kind?.isSome = true := hp
      rw [if_pos hp]
      rfl
    | vector e n =>
      have he := ih e hp hs (by simp [Binary.type] at hd; omega)
      exact (reads u8 1).bind (he.bind (reads u64 n).map)
    | tensor e dims =>
      have he := ih e hp hs.1 (by simp [Binary.type] at hd; omega)
      exact (reads u8 2).bind (he.bind (reads_list hs.2).map)
    | complex e =>
      have he := ih e hp hs (by simpa [Binary.type] using hd)
      exact (reads u8 3).bind he.map
    | struct fs =>
      rw [Binary.type, Binary.fieldTypes_eq, cons_append] at hd ⊢
      refine (reads u8 4).bind (Reads.map (reads_seq hs.1 (fun f _ => ?_) fun f hf => ?_))
      · rw [length_append]
        exact Nat.add_pos_left (Binary.length_text_pos f.1) _
      · have hle := length_le_flatMap_of_mem (fun f => Binary.text f.1 ++ Binary.type f.2) hf
        obtain ⟨hname, hshort⟩ := Ty.shortFields_iff.1 hs.2 f hf
        have hf := ih f.2 (Ty.fieldPrimsExist_iff.1 hp f hf) hshort (by simp at hd hle; omega)
        exact (reads_text hname).bind hf.map
    | function ps r =>
      rw [Binary.type, Binary.types_eq, cons_append] at hd ⊢
      have hr := ih r hp.2 hs.2.2 (by simp at hd; omega)
      refine (reads u8 5).bind ((reads_seq hs.1 (fun p _ => Binary.length_type_pos p) fun p hp' =>
        ?_).bind hr.map)
      have hle := length_le_flatMap_of_mem Binary.type hp'
      exact ih p (Ty.paramPrimsExist_iff.1 hp.1 p hp') (Ty.shortParams_iff.1 hs.2.1 p hp')
        (by simp only [length_append, length_cons] at hd; omega)
    | reference t m =>
      have ht := ih t hp hs (by simp [Binary.type] at hd; omega)
      have hm : Reads (do return .reference t (if ← bool then .mutable else .shared))
          (Binary.bool (m == .mutable)) (Ty.reference t m) := by
        cases m <;> exact (reads bool _).map
      exact (reads u8 6).bind (ht.bind hm)

instance exact_type (depth : Nat) : Exact (type depth) Binary.type := by
  induction depth with
  | zero => exact .of_start (.bind fun _ => .throw)
  | succ depth ih =>
    have hfield : Exact (do
        let name ← text
        let t ← type depth
        return (name, t)) fun f => Binary.text f.1 ++ Binary.type f.2 :=
      .of_start <| .bind fun _ => .bind fun _ => .pure rfl
    refine .of_start <| .bind fun tag => ?_
    split
    · refine .bind fun k => .bind fun w => ?_
      dsimp only
      split
      · exact .pure rfl
      · exact .throw
    · exact .bind fun e => .bind fun n => .pure rfl
    · exact .bind fun e => .bind fun dims => .pure rfl
    · exact .bind fun e => .pure rfl
    · exact .bind fun fs => .pure (by simp [Binary.type, Binary.fieldTypes_eq, Binary.seq])
    · exact .bind fun ps => .bind fun r => .pure (by simp [Binary.type, Binary.types_eq, Binary.seq])
    · refine .bind fun t => .bind fun m => .pure ?_
      cases m <;> rfl
    · exact .throw

/-! ## Values -/

theorem reads_value_of {v : Value} (hv : v.Valid) (hp : v.ty.PrimsExist) (hs : v.ty.Short)
    (hd : (Binary.value v).length ≤ depth + 1) (h : Reads (payload v.ty (value depth)) bs v)
    (hbytes : Binary.value v = Binary.type v.ty ++ bs) : Reads (value (depth + 1)) (Binary.value v) v := by
  rw [hbytes, length_append] at hd
  rw [hbytes]
  refine (reads_type v.ty hp hs (Nat.le_of_add_right_le hd)).bind ?_
  intro rest offset
  refine bind_ok.2 ⟨_, _, h rest offset, ?_⟩
  have hv : v.check = .ok () := hv
  rw [hv]
  rfl

theorem reads_value (v : Value) (hv : v.Valid) (hp : v.ty.PrimsExist) (hs : v.Short)
    (hd : (Binary.value v).length ≤ depth) : Reads (value depth) (Binary.value v) v := by
  induction depth generalizing v with
  | zero => exact absurd hd (Nat.not_le_of_lt (Binary.length_value_pos v))
  | succ depth ih =>
    cases v with
    | scalar t w => exact reads_value_of hv hp hs hd ((reads u8 0).bind (reads u64 w).map) rfl
    | complex t re im =>
      exact reads_value_of hv hp hs hd ((reads u8 1).bind ((reads u64 re).bind (reads u64 im).map))
        (by simp [Binary.value, Value.ty])
    | tensor t shape data =>
      have hdata : Reads (do let n ← count; return .tensor t shape (← take n).toArray)
          (Binary.count data.size ++ data.toList) (Value.tensor t shape data) := by
        refine Reads.counted hs.2.2 (Nat.le_of_eq (by simp)) ?_
        exact (reads_take (by simp)).map
      exact reads_value_of hv hp hs.1 hd ((reads u8 2).bind ((reads_list hs.2.1).bind hdata))
        (by simp [Binary.value, Value.ty])
    | struct t fs =>
      obtain ⟨decl, rfl, hfields⟩ := Value.valid_struct hv
      have hlt := Binary.length_type_pos (.struct decl)
      have hfs : Reads (seq (value depth)) (Binary.seq Binary.value fs) fs := by
        refine reads_seq hs.2.1 (fun f _ => Binary.length_value_pos f) fun f hf => ?_
        obtain ⟨d, hmem, hty, hvalid⟩ := forall₂_exists_right hfields hf
        have hle := length_le_flatMap_of_mem Binary.value hf
        refine ih f hvalid (hty ▸ Ty.fieldPrimsExist_iff.1 hp d hmem) (Value.shortFields_iff.1 hs.2.2 f hf) ?_
        rw [Binary.value, Binary.values_eq] at hd
        simp only [length_append, length_cons] at hd
        omega
      exact reads_value_of hv hp hs.1 hd ((reads u8 3).bind hfs.map)
        (by simp [Binary.value, Binary.values_eq, Binary.seq, Value.ty])
    | function t id => exact reads_value_of hv hp hs hd ((reads u8 4).bind (reads func id).map) rfl
    | ref t slot => exact reads_value_of hv hp hs hd ((reads u8 5).bind (reads u32 slot).map) rfl

theorem exact_payload (t : Ty) [Exact field Binary.value] :
    ExactAfter (Binary.type t) (payload t field) Binary.value := by
  refine .bind fun tag => ?_
  split
  · exact .bind fun w => .pure (by simp [Binary.value])
  · exact .bind fun re => .bind fun im => .pure (by simp [Binary.value])
  · refine .bind fun shape => .bind fun n => ?_
    intro c v c' h
    obtain ⟨bs, c₁, hbs, h⟩ := bind_ok.1 h
    obtain ⟨rfl, rfl⟩ := pure_ok.1 h
    obtain ⟨hlen, hrest⟩ := take_ok hbs
    simp [Binary.value, hlen, hrest]
  · exact .bind fun fs => .pure (by simp [Binary.value, Binary.values_eq, Binary.seq])
  · exact .bind fun id => .pure (by simp [Binary.value])
  · exact .bind fun slot => .pure (by simp [Binary.value])
  · exact .throw

instance exact_value (depth : Nat) : Exact (value depth) Binary.value := by
  induction depth with
  | zero => exact .of_start (.bind fun _ => .throw)
  | succ depth ih =>
    refine .of_start <| .bind fun t => ?_
    intro c v c' h
    obtain ⟨v', c₁, hv, h⟩ := bind_ok.1 h
    cases hc : v'.check with
    | error d =>
      rw [hc] at h
      exact (malformed_ok.1 h).elim
    | ok =>
      rw [hc] at h
      obtain ⟨rfl, rfl⟩ := pure_ok.1 h
      exact exact_payload t c v' c₁ hv

/-- A value is checked when it has been read. -/
theorem value_valid (h : value depth c = .ok (v, c')) : v.Valid := by
  cases depth with
  | zero =>
    obtain ⟨_, _, -, h⟩ := bind_ok.1 h
    exact (throw_ok.1 h).elim
  | succ depth =>
    obtain ⟨_, _, -, h⟩ := bind_ok.1 h
    obtain ⟨v', _, -, h⟩ := bind_ok.1 h
    cases hc : v'.check with
    | error d =>
      rw [hc] at h
      exact (malformed_ok.1 h).elim
    | ok =>
      rw [hc] at h
      obtain ⟨rfl, -⟩ := pure_ok.1 h
      exact hc

end Reader

end Ir

end NumericEngine
