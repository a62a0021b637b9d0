import Dsplinz.Dsp.Filter
import Dsplinz.Core.BloomBitsSpec

/-!
# `Logs` is the naive scan, filtered

The results on `Dsplinz.Dsp.Filter`. A Bloom filter has no false negatives
(`Core.bloomLookup_address`, `Core.bloomLookup_topic`), so a block with a log that
`filterLogs` keeps passes both `bloomFilter` (`Filters.bloomFilter_of_keeps`) and the
matcher's test of the filters `New` flattens the criteria into
(`Filters.matcherMatches_of_keeps`); false positives are filtered out again by
`checkMatches`. On a backend that serves a chain consistently (`Filters.Serves`), each of
the two loops reads exactly the logs of its blocks (`Filters.indexedLogs_new_eq`,
`Filters.unindexedLogs_eq`), and `Filters.logs_eq_naive_scan` puts them together.

The bloom-bits session of `indexedLogs` is the matcher's own (`BloomBits.start`), over the
vectors the backend's retrievals deliver. On a backend whose retrievals give each bloom bit
of an indexed section its vector over the header blooms (`Filters.Serves.delivers`, which
`Dsp.delivers_of_reachable` shows of every run of the bloom indexer), the session delivers
exactly the blocks of its range that pass the matcher's test (`Filters.matcherMatches`).
-/

namespace Filters

open Common Core

/-! ### What a kept log puts in the bloom -/

theorem exists_mem_of_topicsMatch :
    ∀ {topics : List (List Hash)} {ts : List Hash}, topicsMatch topics ts = true →
      ∀ sub ∈ topics, sub = [] ∨ ∃ t ∈ sub, t ∈ ts
  | [], _, _ => fun _ h => nomatch h
  | sub :: subs, t :: ts, h => by
    rw [topicsMatch, Bool.and_eq_true] at h
    obtain ⟨hhead, hrest⟩ := h
    intro s hs
    rcases List.mem_cons.mp hs with rfl | hs
    · rcases Bool.or_eq_true_iff.mp hhead with hnil | hany
      · exact .inl (List.isEmpty_iff.mp hnil)
      · obtain ⟨t', ht', heq⟩ := List.any_eq_true.mp hany
        exact .inr ⟨t', ht', by rw [← beq_iff_eq.mp heq]; exact List.mem_cons_self⟩
    · rcases exists_mem_of_topicsMatch hrest s hs with hnil | ⟨t', ht', hmem⟩
      · exact .inl hnil
      · exact .inr ⟨t', ht', List.mem_cons_of_mem _ hmem⟩
  | _ :: _, [], h => nomatch h

section Lookups

variable {keccak : List UInt8 → List UInt8} {receipts : List Receipt} {log : State.Log}
  {addresses : List Address} {topics : List (List Hash)}

/-- A log `filterLogs` keeps, in one of the receipts, puts one of the addresses and a topic
of each set in their bloom. -/
theorem lookups_of_keeps (keccak : List UInt8 → List UInt8) (hlog : ∃ r ∈ receipts, log ∈ r.logs)
    (hkeep : keeps none none addresses topics log = true) :
    (addresses ≠ [] → ∃ a ∈ addresses,
      bloomLookup keccak (createBloom keccak receipts) (addressBytes a) = true) ∧
    ∀ sub ∈ topics, sub = [] ∨
      ∃ t ∈ sub, bloomLookup keccak (createBloom keccak receipts) (hashBytes t) = true := by
  obtain ⟨r, hr, hl⟩ := hlog
  simp only [keeps, Option.any_none, Bool.not_false, Bool.true_and, Bool.and_eq_true,
    decide_eq_true_eq] at hkeep
  obtain ⟨⟨haddr, -⟩, htopics⟩ := hkeep
  refine ⟨fun hne => ?_, fun sub hsub => ?_⟩
  · -- the log's own address is among them
    have hinc : includes addresses log.address = true := by
      simpa [List.isEmpty_iff, hne] using haddr
    obtain ⟨a, ha, heq⟩ := List.any_eq_true.mp hinc
    rw [beq_iff_eq] at heq
    exact ⟨a, ha, heq ▸ bloomLookup_address hr hl⟩
  · rcases exists_mem_of_topicsMatch htopics sub hsub with hnil | ⟨t, ht, hmem⟩
    · exact .inl hnil
    · exact .inr ⟨t, ht, bloomLookup_topic hr hl hmem⟩

/-- **The header bloom lets through every block with a matching log.** -/
theorem bloomFilter_of_keeps (hlog : ∃ r ∈ receipts, log ∈ r.logs)
    (hkeep : keeps none none addresses topics log = true) :
    bloomFilter keccak (createBloom keccak receipts) addresses topics = true := by
  obtain ⟨haddr, htopics⟩ := lookups_of_keeps keccak hlog hkeep
  rw [bloomFilter, Bool.and_eq_true, Bool.or_eq_true, List.all_eq_true]
  refine ⟨?_, fun sub hsub => ?_⟩
  · by_cases hnil : addresses = []
    · exact .inl (List.isEmpty_iff.mpr hnil)
    · obtain ⟨a, ha, hlook⟩ := haddr hnil
      exact .inr (List.any_eq_true.mpr ⟨a, ha, hlook⟩)
  · rw [Bool.or_eq_true]
    rcases htopics sub hsub with hnil | ⟨t, ht, hlook⟩
    · exact .inl (List.isEmpty_iff.mpr hnil)
    · exact .inr (List.any_eq_true.mpr ⟨t, ht, hlook⟩)

/-- The test the bloom-bits matcher of `filters` makes of a block, on bloom bits that agree
with the header bloom: every filter that is not empty has an entry all of whose bits the
bloom has. -/
def matcherMatches (keccak : List UInt8 → List UInt8) (filters : List (List (List UInt8)))
    (bloom : Nat) : Bool :=
  filters.all fun filter => filter.isEmpty || filter.any fun entry => bloomLookup keccak bloom entry

/-- **The matcher lets through every block with a matching log**: the filters `New` flattens
the criteria into are necessary conditions. -/
theorem matcherMatches_of_keeps (hlog : ∃ r ∈ receipts, log ∈ r.logs)
    (hkeep : keeps none none addresses topics log = true) :
    matcherMatches keccak (filters addresses topics) (createBloom keccak receipts) = true := by
  obtain ⟨haddr, htopics⟩ := lookups_of_keeps keccak hlog hkeep
  rw [filters, matcherMatches, List.all_append, Bool.and_eq_true, List.all_eq_true, List.all_eq_true]
  refine ⟨fun filter hfilter => ?_, fun filter hfilter => ?_⟩
  · -- the filter of the addresses, when there are some
    by_cases hnil : addresses = []
    · simp [hnil] at hfilter
    rw [if_neg (by simpa [List.isEmpty_iff] using hnil), List.mem_singleton] at hfilter
    obtain ⟨a, ha, hlook⟩ := haddr hnil
    rw [hfilter, Bool.or_eq_true]
    exact .inr (List.any_eq_true.mpr ⟨addressBytes a, List.mem_map_of_mem ha, hlook⟩)
  · -- the filter of each set of topics
    obtain ⟨sub, hsub, rfl⟩ := List.mem_map.mp hfilter
    rw [Bool.or_eq_true]
    rcases htopics sub hsub with hnil | ⟨t, ht, hlook⟩
    · exact .inl (by rw [hnil]; rfl)
    · exact .inr (List.any_eq_true.mpr ⟨hashBytes t, List.mem_map_of_mem ht, hlook⟩)

/-- The test of the matcher `New` builds, with no entry nil, is `matcherMatches`. -/
theorem all_newMatcher_map_some (keccak : List UInt8 → List UInt8)
    (filters : List (List (List UInt8))) (bloom : Nat) :
    ((filters.map (List.map some)).all fun filter =>
        filter.isEmpty || filter.any fun clause => clause.all (bloomLookup keccak bloom)) =
      matcherMatches keccak filters bloom := by
  rw [matcherMatches, List.all_map]
  congr 1
  funext filter
  rw [Function.comp_apply, List.isEmpty_map, List.any_map]
  -- `Option.all p (some x)` is `p x`
  rfl

end Lookups

/-! ### A backend that serves a chain -/

/-- A block of the chain: its header, and its receipts. -/
structure Block where
  header : Header
  receipts : List Receipt

/-- The logs of a block, in receipt order. -/
def Block.logs (b : Block) : List State.Log := b.receipts.flatMap Receipt.logs

/-- The logs of the blocks `begin` to `stop`, in block order and then receipt order. -/
def rangeLogs (chain : Nat → Block) (begin stop : Nat) : List State.Log :=
  (List.range' begin (stop + 1 - begin)).flatMap fun n => (chain n).logs

section Chain

variable {keccak : List UInt8 → List UInt8} {addresses : List Address} {topics : List (List Hash)}

theorem filterLogs_eq_nil_of_bloomFilter {block : Block}
    (h : bloomFilter keccak (createBloom keccak block.receipts) addresses topics = false) :
    filterLogs block.logs none none addresses topics = [] := by
  rw [filterLogs, List.filter_eq_nil_iff]
  intro log hlog hkeep
  have hmem : ∃ r ∈ block.receipts, log ∈ r.logs := List.mem_flatMap.mp hlog
  rw [bloomFilter_of_keeps hmem hkeep] at h
  exact Bool.noConfusion h

theorem filterLogs_eq_nil_of_matcherMatches {block : Block}
    (h : matcherMatches keccak (filters addresses topics) (createBloom keccak block.receipts) =
      false) :
    filterLogs block.logs none none addresses topics = [] := by
  rw [filterLogs, List.filter_eq_nil_iff]
  intro log hlog hkeep
  have hmem : ∃ r ∈ block.receipts, log ∈ r.logs := List.mem_flatMap.mp hlog
  rw [matcherMatches_of_keeps hmem hkeep] at h
  exact Bool.noConfusion h

/-- `B` serves the blocks `0` to `head` of `chain` consistently: their headers and logs, the
bloom of each header over its receipts, and bloom-bits sections of blocks it has, whose
retrievals give each bloom bit its vector over the header blooms. Block numbers are
`rpc.BlockNumber`s, so below `2 ^ 63`. -/
structure Serves {ε : Type} (keccak : List UInt8 → List UInt8) (B : Backend ε)
    (chain : Nat → Block) (head : Nat) : Prop where
  head_lt : head < 2 ^ 63
  latest : B.headerByNumber latestBlockNumber = .ok (some (chain head).header)
  header : ∀ n ≤ head, B.headerByNumber n = .ok (some (chain n).header)
  number : ∀ n ≤ head, (chain n).header.number = n
  bloom : ∀ n ≤ head, (chain n).header.bloom = createBloom keccak (chain n).receipts
  getLogs : ∀ n ≤ head, B.getLogs (chain n).header.hash = .ok ((chain n).receipts.map Receipt.logs)
  getReceipts : ∀ n ≤ head, B.getReceipts (chain n).header.hash = .ok (chain n).receipts
  indexed : B.bloomStatus.2 * B.bloomStatus.1 ≤ head + 1
  size_mod : B.bloomStatus.1 % 8 = 0
  delivers : ∀ sec < B.bloomStatus.2,
    BloomBits.Delivers B.bloomStatus.1 (fun n => (chain n).header.bloom) B.retrieve sec

variable {ε : Type} {B : Backend ε} {chain : Nat → Block} {head : Nat}

/-- What `checkMatches` finds in a block of the chain: its logs that `filterLogs` keeps,
whether or not it asks for the receipts again. -/
theorem checkMatches_eq (hB : Serves keccak B chain head) {n : Nat} (hn : n ≤ head) (f : Filter) :
    checkMatches B f (chain n).header = .ok (filterLogs (chain n).logs none none f.addresses f.topics) := by
  have hflat : ((chain n).receipts.map Receipt.logs).flatten = (chain n).logs := rfl
  rw [checkMatches, hB.getLogs n hn]
  simp only [bind, Except.bind, hflat]
  split
  · next hnil => rw [hnil]; rfl
  · -- the light client's logs lack their transaction hashes: the receipts give them
    split
    · rw [hB.getReceipts n hn]
      rfl
    · rfl

theorem toInt64_of_lt {n : Nat} (h : n < 2 ^ 63) : toInt64 n = n := if_pos h

theorem toUint64_of_lt {x : Int} (h₀ : 0 ≤ x) (h : x < 2 ^ 64) : toUint64 x = x.toNat := by
  rw [toUint64, Int.emod_eq_of_lt h₀ h]

/-- The run of `indexedLoop` over blocks of the chain up to `stop`: the logs each keeps, and
the cursor past `stop`. -/
theorem indexedLoop_eq (hB : Serves keccak B chain head) {stop : Nat} (hstop : stop ≤ head) :
    ∀ (ns : List Nat) (f : Filter) (acc : List State.Log), (∀ n ∈ ns, n ≤ stop) →
      indexedLoop B stop none f ns acc =
        ((acc ++ ns.flatMap fun n => filterLogs (chain n).logs none none f.addresses f.topics,
          none), { f with begin := stop + 1 })
  | [], f, acc, _ => by
    rw [indexedLoop, toInt64_of_lt (by have := hB.head_lt; omega), List.flatMap_nil,
      List.append_nil]
  | n :: ns, f, acc, hns => by
    have hn : n ≤ stop := hns n List.mem_cons_self
    rw [indexedLoop, toInt64_of_lt (by have := hB.head_lt; omega), hB.header n (by omega)]
    simp only [checkMatches_eq hB (show n ≤ head by omega)]
    rw [indexedLoop_eq hB hstop ns _ _ fun m hm => hns m (List.mem_cons_of_mem _ hm)]
    simp only [List.flatMap_cons, List.append_assoc]

/-- The run of `unindexedLogs` over the `k` blocks from `f.begin` to `stop`: the logs each
keeps, a block the bloom rules out keeping none, and the cursor past `stop`. -/
theorem unindexedLogs_eq (hB : Serves keccak B chain head) {stop : Nat} (hstop : stop ≤ head) :
    ∀ (k : Nat) (f : Filter) (acc : List State.Log), 0 ≤ f.begin → f.begin + k = stop + 1 →
      unindexedLogs keccak B stop f acc =
        ((acc ++ (List.range' f.begin.toNat k).flatMap fun n =>
          filterLogs (chain n).logs none none f.addresses f.topics, none),
          { f with begin := stop + 1 })
  | 0, f, acc, _, hk => by
    have hhead := hB.head_lt
    rw [unindexedLogs, if_neg (by rw [toInt64_of_lt (by omega)]; omega), List.range'_zero,
      List.flatMap_nil, List.append_nil]
    -- the cursor is already past `stop`
    have hbegin : f.begin = stop + 1 := by omega
    cases f
    dsimp only at hbegin
    rw [hbegin]
  | k + 1, f, acc, h₀, hk => by
    have hhead := hB.head_lt
    have hb : f.begin.toNat ≤ head := by omega
    have hhdr : B.headerByNumber f.begin = .ok (some (chain f.begin.toNat).header) := by
      have h := hB.header f.begin.toNat hb
      rwa [Int.toNat_of_nonneg h₀] at h
    have hrest := fun acc => unindexedLogs_eq hB hstop k { f with begin := f.begin + 1 } acc
      (show 0 ≤ f.begin + 1 by omega) (show f.begin + 1 + k = stop + 1 by omega)
    dsimp only at hrest
    have hnext : (f.begin + 1).toNat = f.begin.toNat + 1 := by omega
    rw [unindexedLogs, if_pos (by rw [toInt64_of_lt (by omega)]; omega), hhdr, List.range'_succ,
      List.flatMap_cons]
    dsimp only
    split
    · rw [checkMatches_eq hB hb]
      dsimp only
      rw [hrest, hnext, List.append_assoc]
    · -- the bloom rules the block out, and it has no matching log
      next hout =>
      have hnil : filterLogs (chain f.begin.toNat).logs none none f.addresses f.topics = [] :=
        filterLogs_eq_nil_of_bloomFilter (by rw [← hB.bloom _ hb]; simpa using hout)
      rw [hrest, hnext, hnil, List.nil_append]

/-- Filtering out elements whose image is empty keeps the `flatMap`. -/
theorem flatMap_filter_of_nil {α β : Type} {p : α → Bool} {g : α → List β} :
    ∀ {l : List α}, (∀ x ∈ l, p x = false → g x = []) → (l.filter p).flatMap g = l.flatMap g
  | [], _ => rfl
  | x :: l, h => by
    have hl := flatMap_filter_of_nil fun y hy => h y (List.mem_cons_of_mem _ hy)
    cases hp : p x with
    | false =>
      rw [List.filter_cons_of_neg (by rw [hp]; exact Bool.false_ne_true), List.flatMap_cons,
        h x List.mem_cons_self hp, List.nil_append, hl]
    | true => rw [List.filter_cons_of_pos hp, List.flatMap_cons, List.flatMap_cons, hl]

/-- A session of the matcher of `filters`, with no entry nil, over blocks of sections whose
retrievals all deliver, is the filter of its range by `matcherMatches`. -/
theorem start_newMatcher_eq_filter {fetch : Nat → Nat → List UInt8} {blooms : Nat → Nat}
    {size sections : Nat} (hmod : size % 8 = 0)
    (hd : ∀ sec < sections, BloomBits.Delivers size blooms fetch sec)
    (filters : List (List (List UInt8))) {begin e : Nat} (he : e < sections * size) :
    BloomBits.start fetch (BloomBits.newMatcher keccak size (filters.map (List.map some))) begin e =
      some ((List.range' begin (e + 1 - begin)).filter fun n =>
        matcherMatches keccak filters (blooms n)) := by
  have hsize : 0 < size := Nat.pos_of_ne_zero fun h => by
    rw [h, Nat.mul_zero] at he
    exact Nat.not_lt_zero _ he
  -- the sections of the range are below `sections`
  have hd' : ∀ sec, begin / size ≤ sec → sec ≤ e / size → BloomBits.Delivers size blooms fetch sec := by
    intro sec _ hsec
    have hlt : e / size < sections := Nat.div_lt_of_lt_mul (by rwa [Nat.mul_comm])
    exact hd sec (by omega)
  rw [BloomBits.start_eq_filter (BloomBits.wellFormed_newMatcher keccak size _) hsize hmod hd',
    BloomBits.filter_passes_newMatcher]
  simp only [all_newMatcher_map_some]

/-- **The session of `indexedLogs` over indexed sections is the filter of its range**: the
blocks whose header bloom passes the matcher's test of the flattened criteria. -/
theorem start_new_eq_filter (hB : Serves keccak B chain head) {begin stop e : Nat}
    (he : e < B.bloomStatus.2 * B.bloomStatus.1) (addresses : List Address)
    (topics : List (List Hash)) :
    BloomBits.start B.retrieve (new keccak B begin stop addresses topics).matcher begin e =
      some ((List.range' begin (e + 1 - begin)).filter fun n =>
        matcherMatches keccak (filters addresses topics) (chain n).header.bloom) :=
  start_newMatcher_eq_filter hB.size_mod hB.delivers _ he

/-- The run of `indexedLogs` over blocks of the indexed sections: the logs of each block
the session delivers, which are those of every block of the range. -/
theorem indexedLogs_new_eq (hB : Serves keccak B chain head) {begin stop e : Nat} (hle : begin ≤ e)
    (he : e < B.bloomStatus.2 * B.bloomStatus.1) (addresses : List Address)
    (topics : List (List Hash)) :
    indexedLogs B (new keccak B begin stop addresses topics) e =
      some (((List.range' begin (e + 1 - begin)).flatMap fun n =>
          filterLogs (chain n).logs none none addresses topics, none),
        { new keccak B begin stop addresses topics with begin := e + 1 }) := by
  have hhead := hB.head_lt
  have hidx := hB.indexed
  have hbegin : toUint64 (new keccak B begin stop addresses topics).begin = begin :=
    toUint64_of_lt (Int.natCast_nonneg _) (by simp only [new]; omega)
  have hrange : ∀ n ∈ (List.range' begin (e + 1 - begin)).filter (fun n =>
      matcherMatches keccak (filters addresses topics) (chain n).header.bloom), n ≤ e := by
    intro n hn
    have := List.mem_range'_1.mp (List.mem_filter.mp hn).1
    omega
  rw [indexedLogs, hbegin, start_new_eq_filter hB he, Option.map_some,
    indexedLoop_eq hB (by omega) _ _ [] hrange, List.nil_append, flatMap_filter_of_nil]
  · rfl
  -- a block that fails the test has no matching log
  intro n hn hout
  have hn := List.mem_range'_1.mp hn
  rw [hB.bloom n (by omega)] at hout
  exact filterLogs_eq_nil_of_matcherMatches hout

/-- The naive scan, filtered, is each block's logs filtered. -/
theorem filterLogs_rangeLogs (chain : Nat → Block) (begin stop : Nat) :
    filterLogs (rangeLogs chain begin stop) none none addresses topics =
      (List.range' begin (stop + 1 - begin)).flatMap fun n =>
        filterLogs (chain n).logs none none addresses topics :=
  List.filter_flatMap

/-- **`Logs` is the naive scan, filtered.** On a backend that serves the chain, the filter
of `New(begin, stop, addresses, topics)` returns, without an error, the logs of the blocks
`begin` to `stop` that `filterLogs` keeps, in block and receipt order, wherever the indexed
sections end: the session's blocks and the scanned ones meet without a gap or an overlap,
and neither the bloom test nor the matcher drops a block with a matching log. -/
theorem logs_eq_naive_scan (hB : Serves keccak B chain head) {begin stop : Nat} (hle : begin ≤ stop)
    (hstop : stop ≤ head) (addresses : List Address) (topics : List (List Hash)) :
    (logs keccak B (new keccak B begin stop addresses topics)).map Prod.fst =
      some (filterLogs (rangeLogs chain begin stop) none none addresses topics, none) := by
  have hhead := hB.head_lt
  have hidx := hB.indexed
  have hfb : ¬(new keccak B begin stop addresses topics).begin = -1 := by simp only [new]; omega
  have hfs : ¬(new keccak B begin stop addresses topics).stop = -1 := by simp only [new]; omega
  have hub : toUint64 (new keccak B begin stop addresses topics).begin = begin :=
    toUint64_of_lt (Int.natCast_nonneg _) (by simp only [new]; omega)
  have hus : toUint64 (new keccak B begin stop addresses topics).stop = stop :=
    toUint64_of_lt (Int.natCast_nonneg _) (by simp only [new]; omega)
  have hmod : B.bloomStatus.2 * B.bloomStatus.1 % 2 ^ 64 = B.bloomStatus.2 * B.bloomStatus.1 :=
    Nat.mod_eq_of_lt (by omega)
  rw [filterLogs_rangeLogs, logs, hB.latest]
  simp only [hB.number head le_rfl, hfb, hfs, hub, hus, hmod, if_false]
  by_cases hpre : B.bloomStatus.2 * B.bloomStatus.1 > begin
  · by_cases hall : B.bloomStatus.2 * B.bloomStatus.1 > stop
    · -- the whole range is indexed, and the scan after it reads nothing
      rw [if_pos hpre, if_pos hall, indexedLogs_new_eq hB hle hall]
      dsimp only [bind, Option.bind]
      rw [unindexedLogs_eq hB hstop 0 _ [] (by simp only; omega) (by simp only; omega)]
      simp only [List.range'_zero, List.flatMap_nil, List.append_nil, Option.pure_def,
        Option.map_some]
    · -- the indexed prefix, then the scan from the first block past it
      rw [if_pos hpre, if_neg hall, indexedLogs_new_eq hB (by omega) (by omega)]
      dsimp only [bind, Option.bind]
      rw [unindexedLogs_eq hB hstop (stop + 1 - B.bloomStatus.2 * B.bloomStatus.1) _ []
        (by simp only; omega) (by simp only; omega)]
      simp only [new, List.nil_append, Option.pure_def, Option.map_some]
      -- the two parts of the range meet at the first block past the indexed sections
      have hsplit : List.range' begin (B.bloomStatus.2 * B.bloomStatus.1 - 1 + 1 - begin) ++
          List.range' ((B.bloomStatus.2 * B.bloomStatus.1 - 1 : Nat) + 1 : Int).toNat
            (stop + 1 - B.bloomStatus.2 * B.bloomStatus.1) =
          List.range' begin (stop + 1 - begin) := by
        rw [show ((B.bloomStatus.2 * B.bloomStatus.1 - 1 : Nat) + 1 : Int).toNat =
          begin + 1 * (B.bloomStatus.2 * B.bloomStatus.1 - 1 + 1 - begin) by omega,
          List.range'_append]
        congr 1
        omega
      rw [← hsplit, List.flatMap_append]
  · -- nothing is indexed past `begin`: the scan reads the whole range
    rw [if_neg hpre]
    dsimp only [pure, bind, Option.bind]
    rw [unindexedLogs_eq hB hstop (stop + 1 - begin) _ [] (by simp only [new]; omega)
      (by simp only [new]; omega)]
    simp only [new, List.nil_append, Int.toNat_natCast, Option.map_some]

/-- A log of address `7` with topic `5`, in block `1`. -/
def sampleLog : State.Log := ⟨7, [5], [], 1, 9, 0, 1, 0, false⟩

/-- A chain whose block `1` holds `sampleLog`, each block hashed by its number, and every
key its own hash. -/
def sampleChain (n : Nat) : Block :=
  let receipts : List Receipt := if n = 1 then [⟨[sampleLog]⟩] else []
  ⟨⟨n, createBloom id receipts, ⟨n % 2 ^ 256, Nat.mod_lt _ (Nat.two_pow_pos 256)⟩⟩, receipts⟩

/-- A backend serving `sampleChain` up to block `2049`, with one section of 2048 blocks
indexed, whose retrievals read the vectors of the generator of the section's blooms. -/
def sampleBackend : Backend Unit where
  headerByNumber n := .ok (some (sampleChain (if n = -1 then 2049 else n.toNat)).header)
  getReceipts h := .ok (sampleChain h.val).receipts
  getLogs h := .ok ((sampleChain h.val).receipts.map Receipt.logs)
  bloomStatus := (2048, 1)
  retrieve := BloomBits.fromGenerators 2048 fun n => (sampleChain n).header.bloom

theorem sampleBackend_bloomStatus : sampleBackend.bloomStatus = (2048, 1) := rfl

theorem sampleBackend_retrieve :
    sampleBackend.retrieve = BloomBits.fromGenerators 2048 fun n => (sampleChain n).header.bloom := by
  -- not `rfl`, which would set out to generate the section's vectors
  simp only [sampleBackend]

theorem serves_sampleBackend : Serves id sampleBackend sampleChain 2049 where
  head_lt := by decide
  latest := rfl
  header n _ := by
    have hn : (n : Int) ≠ -1 := by omega
    simp only [sampleBackend, hn, if_false, Int.toNat_natCast]
  number _ _ := rfl
  bloom _ _ := rfl
  getLogs n hn := by
    have hval : (sampleChain n).header.hash.val = n := Nat.mod_eq_of_lt (by omega)
    simp only [sampleBackend, hval]
  getReceipts n hn := by
    have hval : (sampleChain n).header.hash.val = n := Nat.mod_eq_of_lt (by omega)
    simp only [sampleBackend, hval]
  indexed := by decide
  size_mod := by decide
  delivers sec _ := by
    rw [sampleBackend_bloomStatus, sampleBackend_retrieve]
    exact BloomBits.delivers_fromGenerators (by decide) (by decide) sec

theorem logs_eq_naive_scan_sampleChain :
    Serves id sampleBackend sampleChain 2049 ∧ 0 ≤ 2049 ∧ 2049 ≤ 2049 ∧
      (logs id sampleBackend (new id sampleBackend 0 2049 [7] [[5]])).map Prod.fst =
        some (filterLogs (rangeLogs sampleChain 0 2049) none none [7] [[5]], none) :=
  ⟨serves_sampleBackend, by decide, le_refl _,
    logs_eq_naive_scan serves_sampleBackend (by decide) (le_refl _) [7] [[5]]⟩

end Chain

end Filters
