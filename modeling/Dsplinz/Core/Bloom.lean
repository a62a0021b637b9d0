import Dsplinz.State.StateDB
import Dsplinz.Lib.BigEndian
import Dsplinz.Lib.BitMask

/-!
# Log blooms

`core/types/bloom9.go`: the 2048-bit Bloom filter a block header carries over the logs of
its receipts. `bloom9` sets three bits for a key, each chosen by 11 bits of its
Keccak-256 hash; `LogsBloom` and `CreateBloom` or together those of every address and
topic of every log; `BloomLookup` tests that a key's three bits are all set.

A `Bloom` is modelled, as `Common.Address` and `Common.Hash` are, by the number its 256
bytes denote, which is what `Bloom.Big()` reads. `CreateBloom` stores `bin.Bytes()` in
256 bytes, which keeps that number: it has at most 2048 bits (`Core.createBloom_lt`).
Keccak-256 is a parameter. A Bloom filter has no false negatives whatever the hash:
every address and topic of a receipt's logs passes `BloomLookup` against the bloom of the
receipts (`Core.bloomLookup_address`, `Core.bloomLookup_topic`).
-/

namespace Core

open Common

/-- `BloomByteLength`. -/
def bloomByteLength : Nat := 256

/-- `BloomBitLength`. -/
def bloomBitLength : Nat := 8 * bloomByteLength

/-- `types.Receipt`, as far as blooms and log filters read it. -/
structure Receipt where
  logs : List State.Log

/-- `address.Bytes()`. -/
def addressBytes (a : Address) : List UInt8 := BigEndian.lowBytes a.val 20

/-- `hash.Bytes()`, and `b[:]` of a topic. -/
def hashBytes (h : Hash) : List UInt8 := BigEndian.lowBytes h.val 32

section Bloom

variable (keccak : List UInt8 → List UInt8)

/-- `bloom9`: the bits of the key `b`, picked by the first six bytes of its hash. -/
def bloom9 (b : List UInt8) : Nat :=
  let b := keccak b
  [0, 2, 4].foldl
    (fun r i => r ||| 1 <<< (((b.getD (i + 1) 0).toNat + (b.getD i 0).toNat <<< 8) &&& 2047)) 0

/-- `LogsBloom`. -/
def logsBloom (logs : List State.Log) : Nat :=
  logs.foldl (fun bin log =>
    log.topics.foldl (fun bin b => bin ||| bloom9 keccak (hashBytes b))
      (bin ||| bloom9 keccak (addressBytes log.address))) 0

/-- `CreateBloom`, as the number of its bloom. -/
def createBloom (receipts : List Receipt) : Nat :=
  receipts.foldl (fun bin receipt => bin ||| logsBloom keccak receipt.logs) 0

/-- `BloomLookup(bin, topic)`, on the bytes of `topic`. -/
def bloomLookup (bin : Nat) (topic : List UInt8) : Bool :=
  (bin &&& bloom9 keccak topic) == bloom9 keccak topic

/-! ### A bloom fits in its bytes -/

theorem bloom9_lt (b : List UInt8) : bloom9 keccak b < 2 ^ bloomBitLength := by
  refine BitMask.foldl_lt_two_pow _ (fun r i hr => Nat.or_lt_two_pow hr ?_) _ 0
    (Nat.two_pow_pos _)
  -- each bit is picked by 11 bits of the hash
  have hbit : ((keccak b).getD (i + 1) 0).toNat + ((keccak b).getD i 0).toNat <<< 8 &&& 2047 <
      2048 :=
    Nat.lt_succ_of_le Nat.and_le_right
  rw [Nat.one_shiftLeft]
  exact Nat.pow_lt_pow_right (by decide) hbit

theorem logsBloom_lt (logs : List State.Log) : logsBloom keccak logs < 2 ^ bloomBitLength :=
  BitMask.foldl_lt_two_pow _
    (fun _ log hbin => BitMask.foldl_lt_two_pow _
      (fun _ _ h => Nat.or_lt_two_pow h (bloom9_lt keccak _))
      log.topics _ (Nat.or_lt_two_pow hbin (bloom9_lt keccak _))) logs 0 (Nat.two_pow_pos _)

theorem createBloom_lt (receipts : List Receipt) : createBloom keccak receipts < 2 ^ bloomBitLength :=
  BitMask.foldl_lt_two_pow _ (fun _ r h => Nat.or_lt_two_pow h (logsBloom_lt keccak r.logs))
    receipts 0 (Nat.two_pow_pos _)

/-! ### No false negatives -/

variable {keccak}

/-- The step of `LogsBloom` over one log keeps every bit it is given. -/
theorem logStep_and_eq {bin m : Nat} (h : bin &&& m = m) (log : State.Log) :
    log.topics.foldl (fun bin b => bin ||| bloom9 keccak (hashBytes b))
      (bin ||| bloom9 keccak (addressBytes log.address)) &&& m = m :=
  BitMask.foldl_and_eq_of_start _ (fun _ _ h => BitMask.and_eq_of_or_left h _) _ _
    (BitMask.and_eq_of_or_left h _)

/-- What `LogsBloom` sets stays in `CreateBloom`. -/
theorem createBloom_and_eq {receipts : List Receipt} {r : Receipt} (hr : r ∈ receipts) {m : Nat}
    (hm : ∀ bin, logsBloom keccak r.logs &&& m = m → (bin ||| logsBloom keccak r.logs) &&& m = m)
    (hset : logsBloom keccak r.logs &&& m = m) : createBloom keccak receipts &&& m = m :=
  BitMask.foldl_and_eq_of_mem (fun bin (receipt : Receipt) => bin ||| logsBloom keccak receipt.logs)
    (fun _ _ h => BitMask.and_eq_of_or_left h _) (fun bin => hm bin hset) receipts 0 hr

/-- The bits `LogsBloom` sets for one log, the start of the fold over its topics. -/
theorem logsBloom_and_eq_of_mem {logs : List State.Log} {log : State.Log} (hlog : log ∈ logs)
    {m : Nat} (hset : ∀ bin, log.topics.foldl (fun bin b => bin ||| bloom9 keccak (hashBytes b))
      (bin ||| bloom9 keccak (addressBytes log.address)) &&& m = m) :
    logsBloom keccak logs &&& m = m :=
  BitMask.foldl_and_eq_of_mem _ (fun _ log h => logStep_and_eq h log) hset logs 0 hlog

theorem bloomLookup_of_and_eq {bin : Nat} {topic : List UInt8}
    (h : bin &&& bloom9 keccak topic = bloom9 keccak topic) : bloomLookup keccak bin topic = true := by
  rw [bloomLookup, h, beq_self_eq_true]

/-- **The address of every log passes the lookup** in the bloom of its receipts. -/
theorem bloomLookup_address {receipts : List Receipt} {r : Receipt} (hr : r ∈ receipts)
    {log : State.Log} (hlog : log ∈ r.logs) :
    bloomLookup keccak (createBloom keccak receipts) (addressBytes log.address) = true := by
  refine bloomLookup_of_and_eq (createBloom_and_eq hr (fun _ h => BitMask.and_eq_of_or_right h _) ?_)
  refine logsBloom_and_eq_of_mem hlog fun bin => ?_
  -- the address's bits are or-ed in before the topics, which keep them
  exact BitMask.foldl_and_eq_of_start _ (fun _ _ h => BitMask.and_eq_of_or_left h _) _ _
    (BitMask.or_and_self _ _)

/-- **Every topic of every log passes the lookup** in the bloom of its receipts. -/
theorem bloomLookup_topic {receipts : List Receipt} {r : Receipt} (hr : r ∈ receipts)
    {log : State.Log} (hlog : log ∈ r.logs) {t : Hash} (ht : t ∈ log.topics) :
    bloomLookup keccak (createBloom keccak receipts) (hashBytes t) = true := by
  refine bloomLookup_of_and_eq (createBloom_and_eq hr (fun _ h => BitMask.and_eq_of_or_right h _) ?_)
  refine logsBloom_and_eq_of_mem hlog fun bin => ?_
  exact BitMask.foldl_and_eq_of_mem (fun bin (b : Hash) => bin ||| bloom9 keccak (hashBytes b))
    (fun _ _ h => BitMask.and_eq_of_or_left h _) (fun acc => BitMask.or_and_self acc _) _ _ ht

end Bloom

end Core
