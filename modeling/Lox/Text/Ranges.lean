namespace Lox.Text

abbrev Ranges := List (Nat × Nat)

namespace Ranges

def holds (ranges : Ranges) (c : Char) : Bool :=
  ranges.any fun (first, last) => first ≤ c.toNat && c.toNat ≤ last

def isOrdered : Ranges → Bool
  | [] => true
  | [(first, last)] => first ≤ last
  | (first, last) :: (next, stop) :: rest =>
    first ≤ last && last + 1 < next && isOrdered ((next, stop) :: rest)

def count : Ranges → Nat
  | [] => 0
  | (first, last) :: rest => last + 1 - first + count rest

end Ranges
end Lox.Text
