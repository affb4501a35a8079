/-! The zigzag mapping of signed numbers to naturals.

Numbers of small magnitude become small naturals, whatever their sign: 0, -1, 1, -2, 2, … become 0,
1, 2, 3, 4, …. -/
namespace Protobuf.Zigzag

def encode (n : Int) : Nat :=
  if 0 ≤ n then (2 * n).toNat else (-2 * n - 1).toNat

def decode (n : Nat) : Int :=
  if n % 2 = 0 then (n / 2 : Nat) else -((n / 2 : Nat) : Int) - 1

theorem decode_encode (n : Int) : decode (encode n) = n := by
  unfold decode encode
  split <;> split <;> omega

end Protobuf.Zigzag
