/-! # Keys

Keys of several kinds for caches that hold them side by side. Keys of different
kinds are never equal. Beside whole numbers, texts and tuples there are texts
compared without regard to ASCII case, and keys that equal nothing, not even
themselves, as an undefined number does.
-/

namespace Lru

inductive Key
  | int (n : Int)
  | text (s : String)
  | tuple (parts : List Key)
  | caseless (s : String)
  | unequal (n : Int)
  deriving Repr

namespace Key

mutual

/-- Equality of keys; tuples are compared part by part. -/
def same : Key → Key → Bool
  | int m, int n => m == n
  | text s, text t => s == t
  | tuple ps, tuple qs => sameParts ps qs
  | caseless s, caseless t => s.toLower == t.toLower
  | _, _ => false

def sameParts : List Key → List Key → Bool
  | [], [] => true
  | p :: ps, q :: qs => same p q && sameParts ps qs
  | _, _ => false

end

instance : BEq Key where
  beq := same

end Key

end Lru
