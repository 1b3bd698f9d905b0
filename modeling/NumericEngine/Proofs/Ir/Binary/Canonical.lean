import NumericEngine.Proofs.Ir.Binary.RoundTrip

/-!
# One byte string for each module

Whatever bytes are read as a module, however they came about, are the bytes
that the module is written as. So a module can be read from one byte string
only.
-/

namespace NumericEngine.Ir.Module

/-- Reading loses nothing: the module that bytes are read as is written as those bytes, and no
other bytes are read as the same module. -/
theorem encode_of_decode {bs : List UInt8} {m : Module} (h : decode bs = .ok m) :
    m.encode = bs ∧ ∀ bs', decode bs' = .ok m → bs' = bs := by
  have hbs := encode_eq_of_decode h
  exact ⟨hbs, fun bs' h' => (encode_eq_of_decode h').symm.trans hbs⟩

/-- A function `id` of one block that returns its parameter, a 64-bit integer. -/
def identityBytes : List UInt8 :=
  [0x54, 0x53, 0x49, 0x52, 1, 0,
   1, 0, 0, 0, 0, 0, 64,
   0, 0, 0, 0,
   1, 0, 0, 0,
   0, 0, 0, 0, 2, 0, 0, 0, 0x69, 0x64, 1, 0, 0, 0, 0, 0, 0, 0, 0, 0, 0, 0,
   1, 0, 0, 0, 0, 0, 0, 0, 0, 0, 0, 0,
   1, 0, 0, 0, 0, 0, 0, 0, 1, 0, 0, 0, 0x65, 0, 0, 0, 0, 2, 0, 0, 0, 0]

def identity : Module :=
  { types := ⟨#[.i64]⟩
    functions := [{ id := ⟨0⟩, name := "id", params := [⟨0⟩], retType := ⟨0⟩,
                    blocks := [{ id := ⟨0⟩, label := "e", instrs := [], terminator := .ret ⟨0⟩ }],
                    regTypes := #[⟨0⟩], slotTypes := #[] }] }

theorem encode_of_decode_identity :
    decode identityBytes = .ok identity ∧ identity.encode = identityBytes := by
  have h : decode identityBytes = .ok identity := by decide +kernel
  exact ⟨h, (encode_of_decode h).1⟩

end NumericEngine.Ir.Module
