import SuperBadBlock.Memory

namespace SuperBadBlock

-- `uint64_t` arithmetic.
def u64 (x : Nat) : Nat := x % 2 ^ 64

-- The loop of `fletcher64`, with `wordCount` iterations left.
def fletcherLoop (mem : Memory) : Nat → Int → Nat → Nat → Parse (Nat × Nat)
  | 0, _, sum1, sum2 => pure (sum1, sum2)
  | wordCount + 1, wordPtr, sum1, sum2 => do
      let m := 0xFFFFFFFF
      let word ← mem.read wordPtr 4
      let sum1 := u64 (sum1 + word)
      let sum1 := u64 ((sum1 &&& m) + (sum1 >>> 32))
      let sum2 := u64 (sum2 + sum1)
      let sum2 := u64 ((sum2 &&& m) + (sum2 >>> 32))
      fletcherLoop mem wordCount (wordPtr + 4) sum1 sum2

def fletcher64 (mem : Memory) (data : Int) (byteCount : Nat) : Parse Nat := do
  let m := 0xFFFFFFFF
  let (sum1, sum2) ← fletcherLoop mem (byteCount / 4) data 0 0
  let check1 := m - u64 (sum1 + sum2) % m
  let check2 := m - u64 (sum1 + check1) % m
  pure (u64 (check2 <<< 32) ||| check1)

end SuperBadBlock
