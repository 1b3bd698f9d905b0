import NumericEngine.Ir.Binary.Encode
import NumericEngine.Ir.Binary.Reader
import NumericEngine.Proofs.Word.Bytes

/-!
# Laws of readers

`Reads rd bs x`: the reader takes the bytes `bs`, and no more, off the front of
any input and answers `x`. `Exact rd enc`: what the reader answers, the writer
`enc` writes as the bytes that were taken. `ExactAfter front rd enc`: so it does
behind bytes that were taken before. All are kept by sequencing. `Codec rd enc`:
whatever is written is read as well, without a condition on its size.
-/

namespace NumericEngine.Ir.Reader

open List

variable {α β : Type} {rd : Reader α} {enc : α → List UInt8} {c c' : Cursor} {n : Nat}
  {item : Reader α} {bs : List UInt8} {xs : List α}

def Reads (rd : Reader α) (bs : List UInt8) (x : α) : Prop :=
  ∀ rest offset, rd ⟨bs ++ rest, offset⟩ = .ok (x, ⟨rest, offset + bs.length⟩)

class Exact (rd : Reader α) (enc : outParam (α → List UInt8)) : Prop where
  rest : ∀ {c x c'}, rd c = .ok (x, c') → c.rest = enc x ++ c'.rest

class Codec (rd : Reader α) (enc : outParam (α → List UInt8)) : Prop extends Exact rd enc where
  read : ∀ x, Reads rd (enc x) x
  pos : ∀ x, 0 < (enc x).length

theorem reads (rd : Reader α) [Codec rd enc] (x : α) : Reads rd (enc x) x := Codec.read x

def ExactAfter (front : List UInt8) (rd : Reader α) (enc : α → List UInt8) : Prop :=
  ∀ c x c', rd c = .ok (x, c') → front ++ c.rest = enc x ++ c'.rest

/-! ## Sequencing -/

theorem bind_ok : (rd >>= f) c = .ok (y, c') ↔ ∃ x c₁, rd c = .ok (x, c₁) ∧ f x c₁ = .ok (y, c') := by
  show (rd c >>= fun p => f p.1 p.2) = _ ↔ _
  cases h : rd c with
  | error e => simp [bind, Except.bind]
  | ok p =>
    obtain ⟨x, c₁⟩ := p
    simp [bind, Except.bind]

theorem pure_ok : (pure x : Reader α) c = .ok (y, c') ↔ x = y ∧ c = c' := by
  show (Except.ok (x, c) : Except DecodeError _) = _ ↔ _
  simp

theorem get_ok : (get : Reader Cursor) c = .ok (c₁, c') ↔ c = c₁ ∧ c = c' := by
  show (Except.ok (c, c) : Except DecodeError _) = _ ↔ _
  simp

theorem throw_ok : (throw e : Reader α) c = .ok (x, c') ↔ False := by
  show (Except.error e : Except DecodeError _) = _ ↔ _
  simp

theorem invalidTag_ok :
    (invalidTag what tag : Reader α) c = .ok (x, c') ↔ False := throw_ok

theorem malformed_ok :
    (malformed cause : Reader α) c = .ok (x, c') ↔ False := throw_ok

theorem Reads.pure (x : α) : Reads (pure x) [] x := fun _ _ => rfl

theorem Reads.bind (h : Reads rd bs x) (hf : Reads (f x) bs' y) : Reads (rd >>= f) (bs ++ bs') y := by
  intro rest offset
  rw [append_assoc]
  refine bind_ok.2 ⟨x, _, h (bs' ++ rest) offset, ?_⟩
  rw [hf rest (offset + bs.length), length_append, Nat.add_assoc]

theorem Reads.map {f : α → β} (h : Reads rd bs x) : Reads (rd >>= fun a => Pure.pure (f a)) bs (f x) := by
  have := Reads.bind (f := fun a => Pure.pure (f a)) h (Reads.pure (f x))
  rwa [append_nil] at this

theorem Exact.of_start (h : ExactAfter [] rd enc) : Exact rd enc := ⟨h _ _ _⟩

theorem ExactAfter.pure (h : front = enc x) : ExactAfter front (Pure.pure x) enc := by
  intro c y c' hy
  obtain ⟨rfl, rfl⟩ := pure_ok.1 hy
  rw [h]

theorem ExactAfter.throw : ExactAfter front (throw e) enc := fun _ _ _ h => (throw_ok.1 h).elim

theorem ExactAfter.bind {f : α → Reader β} [Exact rd enc] (h : ∀ x, ExactAfter (front ++ enc x) (f x) enc') :
    ExactAfter front (rd >>= f) enc' := by
  intro c y c' hy
  obtain ⟨x, c₁, hx, hy⟩ := bind_ok.1 hy
  rw [Exact.rest hx, ← append_assoc]
  exact h x c₁ y c' hy

instance : Exact (get : Reader Cursor) fun _ => [] := ⟨fun h => by rw [(get_ok.1 h).2]; rfl⟩

/-- A reader whose answer is wrapped, and a writer that sees through the wrapping. -/
theorem Exact.map {f : α → β} [Exact rd enc] (hf : ∀ x, enc x = enc' (f x)) :
    Exact (rd >>= fun a => Pure.pure (f a)) enc' :=
  .of_start (.bind fun x => .pure (hf x))

theorem Codec.map {f : α → β} [Codec rd enc] (hf : ∀ x, enc x = enc' (f x)) (hall : ∀ y, ∃ x, f x = y) :
    Codec (rd >>= fun a => Pure.pure (f a)) enc' where
  toExact := .map hf
  read y := by
    obtain ⟨x, rfl⟩ := hall y
    exact hf x ▸ (reads rd x).map
  pos y := by
    obtain ⟨x, rfl⟩ := hall y
    exact hf x ▸ pos rd x

/-! ## Words -/

theorem atLeast_iff (n : Nat) (bs : List UInt8) : atLeast n bs = true ↔ n ≤ bs.length := by
  induction n generalizing bs with
  | zero => simp [atLeast]
  | succ n ih =>
    cases bs with
    | nil => simp [atLeast]
    | cons b bs => simp [atLeast, ih]

theorem reads_take (h : bs.length = n) : Reads (take n) bs bs := by
  intro rest offset
  subst h
  have hle : atLeast bs.length (bs ++ rest) = true := (atLeast_iff _ _).2 (by simp)
  rw [take, if_pos hle, take_left, drop_left]

theorem take_ok (h : take n c = .ok (bs, c')) : bs.length = n ∧ c.rest = bs ++ c'.rest := by
  rw [take] at h
  split at h
  · rename_i hle
    cases h
    exact ⟨length_take_of_le ((atLeast_iff _ _).1 hle), (take_append_drop n c.rest).symm⟩
  · cases h

instance : Codec u8 fun b => [b] where
  rest h := by
    rw [u8] at h
    split at h <;> cases h
    assumption
  read _ _ _ := rfl
  pos _ := Nat.one_pos

theorem reads_word (hn : n ≤ 8) {w : UInt64} (hw : w.toNat < 2 ^ (8 * n)) :
    Reads (word n) (leBytes n w) w := by
  have h := (reads_take (length_leBytes n w)).map (f := ofLeBytes)
  rwa [ofLeBytes_leBytes hn hw] at h

theorem word_ok (hn : n ≤ 8) (h : word n c = .ok (w, c')) :
    c.rest = leBytes n w ++ c'.rest ∧ w.toNat < 2 ^ (8 * n) := by
  obtain ⟨bs, c₁, hbs, h⟩ := bind_ok.1 h
  obtain ⟨hlen, hrest⟩ := take_ok hbs
  obtain ⟨rfl, rfl⟩ := pure_ok.1 h
  subst hlen
  exact ⟨by rw [leBytes_ofLeBytes hn, hrest], toNat_ofLeBytes_lt hn⟩

instance : Codec u64 Binary.u64 where
  rest h := (word_ok (Nat.le_refl 8) h).1
  read w := reads_word (Nat.le_refl 8) w.toNat_lt
  pos _ := by simp [Binary.u64]

instance : Codec u32 Binary.u32 where
  rest h := by
    obtain ⟨w, c₁, hw, h⟩ := bind_ok.1 h
    obtain ⟨hrest, hlt⟩ := word_ok (by decide) hw
    obtain ⟨rfl, rfl⟩ := pure_ok.1 h
    have hsame : w.toUInt32.toUInt64 = w := by
      apply UInt64.toNat_inj.1
      rw [UInt32.toNat_toUInt64, UInt64.toNat_toUInt32, Nat.mod_eq_of_lt hlt]
    rw [hrest, Binary.u32, hsame]
  read w := by
    have hw : w.toUInt64.toNat < 2 ^ (8 * 4) := by
      rw [UInt32.toNat_toUInt64]
      exact w.toNat_lt
    have h := (reads_word (by decide) hw).map (f := UInt64.toUInt32)
    rwa [UInt32.toUInt32_toUInt64] at h
  pos _ := by simp [Binary.u32]

instance : Codec bool Binary.bool where
  toExact := .of_start <| .bind fun tag => by
    split
    · exact .pure rfl
    · exact .pure rfl
    · exact .throw
  read b := by cases b <;> exact fun _ _ => rfl
  pos _ := Nat.one_pos

/-! ## Lengths, texts and collections -/

theorem count_eq_u32 (h : n < 2 ^ 32) : Binary.count n = Binary.u32 (UInt32.ofNat n) := by
  have hsame : UInt64.ofNat n = (UInt32.ofNat n).toUInt64 := by
    apply UInt64.toNat_inj.1
    rw [UInt32.toNat_toUInt64, UInt32.toNat_ofNat_of_lt' h,
      UInt64.toNat_ofNat_of_lt' (Nat.lt_trans h (by decide))]
  rw [Binary.count, Binary.u32, hsame]

theorem count_append (hn : n < 2 ^ 32) {rest : List UInt8} (hle : n ≤ rest.length) (offset : Nat) :
    count ⟨Binary.count n ++ rest, offset⟩ = .ok (n, ⟨rest, offset + (Binary.count n).length⟩) := by
  rw [count_eq_u32 hn]
  refine bind_ok.2 ⟨_, _, reads u32 (UInt32.ofNat n) rest offset, ?_⟩
  refine bind_ok.2 ⟨_, _, get_ok.2 ⟨rfl, rfl⟩, ?_⟩
  rw [UInt32.toNat_ofNat_of_lt' hn, if_pos ((atLeast_iff n rest).2 hle)]
  rfl

instance : Exact count Binary.count := .of_start <| .bind fun w => by
  intro c n c' h
  obtain ⟨c₂, c₃, hget, h⟩ := bind_ok.1 h
  obtain ⟨rfl, rfl⟩ := get_ok.1 hget
  split at h
  · obtain ⟨rfl, rfl⟩ := pure_ok.1 h
    rw [count_eq_u32 w.toNat_lt, UInt32.ofNat_toNat]
    rfl
  · exact (throw_ok.1 h).elim

/-- A length that was read, and what is read of that length. -/
theorem Reads.counted (hn : n < 2 ^ 32) (hle : n ≤ bs.length) (h : Reads (f n) bs y) :
    Reads (count >>= f) (Binary.count n ++ bs) y := by
  intro rest offset
  rw [append_assoc]
  refine bind_ok.2 ⟨n, _, count_append hn (by rw [length_append]; omega) offset, ?_⟩
  rw [h rest, length_append, Nat.add_assoc]

theorem toList_loop_eq (bs : ByteArray) (i : Nat) (acc : List UInt8) :
    ByteArray.toList.loop bs i acc = acc.reverse ++ bs.data.toList.drop i := by
  induction i, acc using ByteArray.toList.loop.induct bs with
  | case1 i acc hlt ih =>
    have hi : i < bs.data.toList.length := hlt
    have hget : bs.get! i = bs.data.toList[i] := by
      show bs.data[i]! = _
      rw [getElem!_pos bs.data i hlt]
      rfl
    rw [ByteArray.toList.loop, if_pos hlt, ih, drop_eq_getElem_cons hi, hget]
    simp
  | case2 i acc hge =>
    have hi : bs.data.toList.length ≤ i := Nat.le_of_not_lt hge
    rw [ByteArray.toList.loop, if_neg hge, drop_of_length_le hi, append_nil]

theorem toList_eq_data (bs : ByteArray) : bs.toList = bs.data.toList := by
  rw [ByteArray.toList, toList_loop_eq]
  rfl

theorem fromUTF8?_eq_some : String.fromUTF8? b = some s ↔ s.toUTF8 = b := by
  unfold String.fromUTF8?
  constructor
  · intro h
    split at h
    · cases h
      rfl
    · cases h
  · rintro rfl
    have hv : s.toUTF8.IsValidUTF8 := s.isValidUTF8
    rw [dif_pos hv]
    rfl

theorem reads_text {s : String} (h : s.utf8ByteSize < 2 ^ 32) : Reads text (Binary.text s) s := by
  have hlen : s.toUTF8.toList.length = s.utf8ByteSize := by
    rw [toList_eq_data]
    rfl
  have hutf : String.fromUTF8? ⟨s.toUTF8.toList.toArray⟩ = some s := by
    rw [fromUTF8?_eq_some, toList_eq_data]
  refine Reads.counted h (Nat.le_of_eq hlen.symm) ?_
  intro rest offset
  refine bind_ok.2 ⟨_, _, reads_take hlen rest offset, ?_⟩
  rw [hutf]
  rfl

instance : Exact text Binary.text := .of_start <| .bind fun n => by
  intro c s c' h
  obtain ⟨bs, c₂, hbs, h⟩ := bind_ok.1 h
  obtain ⟨hlen, hrest⟩ := take_ok hbs
  cases hs : String.fromUTF8? ⟨bs.toArray⟩ with
  | none =>
    rw [hs] at h
    exact (throw_ok.1 h).elim
  | some s' =>
    rw [hs] at h
    obtain ⟨rfl, rfl⟩ := pure_ok.1 h
    have hutf := fromUTF8?_eq_some.1 hs
    have hbytes : s'.toUTF8.toList = bs := by rw [toList_eq_data, hutf]
    have hsize : s'.utf8ByteSize = n := by
      rw [← hlen, ← hbytes, toList_eq_data]
      rfl
    rw [hrest, Binary.text, hsize, hbytes, append_assoc]
    rfl

theorem reads_times (h : ∀ x ∈ xs, Reads item (enc x) x) :
    Reads (times item xs.length) (xs.flatMap enc) xs := by
  induction xs with
  | nil => exact Reads.pure []
  | cons x xs ih =>
    rw [flatMap_cons]
    refine (h x mem_cons_self).bind ?_
    exact (ih fun y hy => h y (mem_cons_of_mem x hy)).map

theorem times_ok [Exact item enc] (hx : times item n c = .ok (xs, c')) :
    xs.length = n ∧ c.rest = xs.flatMap enc ++ c'.rest := by
  induction n generalizing c xs with
  | zero =>
    obtain ⟨rfl, rfl⟩ := pure_ok.1 hx
    exact ⟨rfl, rfl⟩
  | succ n ih =>
    obtain ⟨y, c₁, hy, hx⟩ := bind_ok.1 hx
    obtain ⟨ys, c₂, hys, hx⟩ := bind_ok.1 hx
    obtain ⟨rfl, rfl⟩ := pure_ok.1 hx
    obtain ⟨hlen, hrest⟩ := ih hys
    rw [length_cons, hlen, Exact.rest hy, hrest, flatMap_cons, append_assoc]
    exact ⟨rfl, rfl⟩

theorem times_all {P : α → Prop} (hitem : ∀ c x c', item c = .ok (x, c') → P x)
    (h : times item n c = .ok (xs, c')) : ∀ x ∈ xs, P x := by
  induction n generalizing c xs c' with
  | zero =>
    obtain ⟨rfl, -⟩ := pure_ok.1 h
    exact nofun
  | succ n ih =>
    obtain ⟨y, c₁, hy, h⟩ := bind_ok.1 h
    obtain ⟨ys, c₂, hys, h⟩ := bind_ok.1 h
    obtain ⟨rfl, -⟩ := pure_ok.1 h
    exact forall_mem_cons.2 ⟨hitem c y c₁ hy, ih hys⟩

theorem length_le_flatMap (h : ∀ x ∈ xs, 0 < (enc x).length) : xs.length ≤ (xs.flatMap enc).length := by
  induction xs with
  | nil => simp
  | cons x xs ih =>
    have hx := h x mem_cons_self
    have hxs := ih fun y hy => h y (mem_cons_of_mem x hy)
    rw [flatMap_cons, length_cons, length_append]
    omega

theorem reads_seq (hlen : xs.length < 2 ^ 32)
    (hpos : ∀ x ∈ xs, 0 < (enc x).length) (h : ∀ x ∈ xs, Reads item (enc x) x) :
    Reads (seq item) (Binary.seq enc xs) xs :=
  Reads.counted hlen (length_le_flatMap hpos) (reads_times h)

theorem reads_list [Codec item enc] (hlen : xs.length < 2 ^ 32) : Reads (seq item) (Binary.seq enc xs) xs :=
  reads_seq hlen (fun x _ => Codec.pos item x) fun x _ => reads item x

instance [Exact item enc] : Exact (seq item) (Binary.seq enc) := .of_start <| .bind fun n => by
  intro c xs c' hx
  obtain ⟨rfl, hrest⟩ := times_ok hx
  rw [hrest, Binary.seq, append_assoc]
  rfl

end NumericEngine.Ir.Reader
