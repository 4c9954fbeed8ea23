import Ccollections.Chashmap.Lemmas.ByteHash

/-!
# The byte hashes
-/

namespace Ccollections.Chashmap

/-- Under every key and every seed the byte hashes are SipHash-1-3 and XXH64 of the input, and no read leaves it. -/
theorem byte_hashes_match_specifications (input : List UInt8) :
    (∀ k0 k1, siphash13 (chmapSipStateFromKey k0 k1) input = some (Lib.sipHash 1 3 k0 k1 input)) ∧
    ∀ seed, xxh64 input seed = some (Lib.xxh64Hash seed input) :=
  ⟨fun k0 k1 => siphash13_eq k0 k1 input, fun seed => xxh64_eq seed input⟩

end Ccollections.Chashmap
