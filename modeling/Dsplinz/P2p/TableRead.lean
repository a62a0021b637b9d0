import Dsplinz.P2p.TableSpec
import Dsplinz.Lib.BigEndian
import Dsplinz.Lib.GoHeap
import Dsplinz.Lib.GoSlice
import Dsplinz.Lib.GoSort
import Dsplinz.Lib.TopK

/-!
# Reading the table: the closest nodes, and random nodes

Two functions of `p2p/discover/table.go` read the whole table.

`Table.closest(target, nresults)` pushes every entry of every bucket into a
`nodesByDistance`, which keeps at most `nresults` nodes sorted by `distcmp`. A push finds
with `sort.Search` the first kept node farther from the target than the new one and slides
the rest down to make room for it, the last one falling off when the list is full. So the
list is at every point the nearest `nresults` of the nodes pushed so far, whatever their
order.

| stage | what it gives | theorem |
|---|---|---|
| `distcmp` | the comparison of the numbers `a xor target` and `b xor target` | `Discover.distcmp_eq` |
| `nodesByDistance.push` | `TopK.push` for the XOR distance | `Discover.NodesByDistance.push_entries` |
| any sequence of pushes | the nearest of the nodes pushed | `Discover.pushAll_nearest` |
| `Table.closest` | the nearest entries of the table | `Discover.Table.closest_nearest` |

`Table.ReadRandomNodes(buf)` shuffles the nonempty buckets and then moves the head of one
bucket after another into `buf`, dropping buckets as they run out. It writes distinct
entries of the table, as many as fit. The count it returns is `i + 1`: right when the loop
breaks because the nodes ran out, since `i` then indexes the last node written, and one
too many when it stops because `buf` is full, since `i` is then `len(buf)`.

The hash `n.sha` of a node is `nodeHash n.id`, and `tab.rand.Intn(k)` is a draw `d` of a
list, reduced modulo `k`.
-/

namespace Discover

open Common BigEndian

/-! ### The model -/

/-- The 32 bytes of a hash, most significant first. -/
def hashBytes (h : Hash) : List UInt8 := lowBytes h.val 32

/-- The loop of `distcmp` over the bytes of the target and of the two hashes. -/
def distcmpLoop : List UInt8 → List UInt8 → List UInt8 → Int
  | t :: ts, a :: as, b :: bs =>
    let da := a ^^^ t
    let db := b ^^^ t
    if da > db then 1 else if da < db then -1 else distcmpLoop ts as bs
  | _, _, _ => 0

/-- `distcmp(target, a, b)`: `-1` if `a` is closer to `target`, `1` if `b` is, `0` if they are
as close. -/
def distcmp (target a b : Hash) : Int :=
  distcmpLoop (hashBytes target) (hashBytes a) (hashBytes b)

/-- `nodesByDistance`. -/
structure NodesByDistance where
  entries : List Node
  target : Hash

variable (nodeHash : NodeID → Hash)

/-- `nodesByDistance.push(n, maxElems)`. -/
def NodesByDistance.push (h : NodesByDistance) (n : Node) (maxElems : Nat) : NodesByDistance :=
  let ix := GoSort.search h.entries.length fun i =>
    decide (distcmp h.target (nodeHash (h.entries.getD i n).id) (nodeHash n.id) > 0)
  let entries := if h.entries.length < maxElems then h.entries ++ [n] else h.entries
  if ix = entries.length then
    -- farther away than all nodes we already have
    { h with entries }
  else
    -- slide existing entries down to make room, overwriting the entry just appended
    { h with entries := (GoSlice.copyAt entries (ix + 1) (entries.drop ix)).1.set ix n }

namespace Table

/-- `Table.closest(target, nresults)`. -/
def closest (tab : Table) (target : Hash) (nresults : Nat) : NodesByDistance :=
  (List.finRange nBuckets).foldl (fun close b =>
    (tab.buckets b).entries.foldl (fun close n => close.push nodeHash n nresults) close)
    ⟨[], target⟩

/-- `Table.len()`. -/
def len (tab : Table) : Nat :=
  (List.finRange nBuckets).foldl (fun n b => n + (tab.buckets b).entries.length) 0

end Table

/-- The shuffle `for i := len(buckets) - 1; i > 0; i--` of `ReadRandomNodes`, from round `i`:
the bucket at `i` trades places with the one at the draw `tab.rand.Intn(len(buckets))`. -/
def shuffle (buckets : List (List Node)) : Nat → List Nat → List (List Node)
  | 0, _ => buckets
  | i + 1, draws =>
    shuffle (GoHeap.swap buckets (i + 1) (draws.headD 0 % buckets.length)) i draws.tail

/-- The buckets once the head `x` of bucket `j` has gone into `buf`, its tail `b'` left:
`buckets[j] = b[1:]`, and the bucket is cut out if `len(b) == 1`. -/
def popHead (buckets : List (List Node)) (j : Nat) (x : Node) (b' : List Node) :
    List (List Node) :=
  let buckets := buckets.set j b'
  if (x :: b').length = 1 then buckets.eraseIdx j else buckets

/-- The loop `for ; i < len(buf); i, j = i+1, (j+1)%len(buckets)` of `ReadRandomNodes`, with
`i` the number of nodes written so far and `rest` the rounds left before `i` reaches
`len(buf)`: the value of `i` after the loop, and the nodes written; `none` for a panic. -/
def fillLoop : Nat → Nat → List (List Node) → List Node → Option (Nat × List Node)
  | 0, _, _, written => some (written.length, written)
  | rest + 1, j, buckets, written =>
    match buckets[j]? with
    | some (x :: b') =>
      let written := written ++ [x]
      let buckets' := popHead buckets j x b'
      -- the nodes ran out: `i` stays at the node just written
      if buckets'.length = 0 then some (written.length - 1, written)
      else fillLoop rest ((j + 1) % buckets'.length) buckets' written
    | _ => none

namespace Table

/-- The entries of the nonempty buckets, in the order of the buckets. -/
def nonemptyBuckets (tab : Table) : List (List Node) :=
  ((List.finRange nBuckets).map fun b => (tab.buckets b).entries).filter fun e => 0 < e.length

/-- `Table.ReadRandomNodes(buf)` on a buffer of `bufLen` nodes: the count it returns, and the
nodes it writes at the front of `buf`; `none` for a panic. -/
def readRandomNodes (tab : Table) (initDone : Bool) (draws : List Nat) (bufLen : Nat) :
    Option (Nat × List Node) :=
  if !initDone then some (0, [])
  else
    let buckets := tab.nonemptyBuckets
    if buckets.length = 0 then some (0, [])
    else
      let buckets := shuffle buckets (buckets.length - 1) draws
      (fillLoop bufLen 0 buckets []).map fun (i, written) => (i + 1, written)

end Table

/-! ### `distcmp` compares XOR distances -/

/-- The XOR distance of a hash from the target, as a number. -/
def xorDist (target a : Hash) : Nat := a.val ^^^ target.val

/-- The comparison of two numbers, in the values `distcmp` returns. -/
def cmpNat (x y : Nat) : Int := if x < y then -1 else if x = y then 0 else 1

/-- The loop of `distcmp` compares the strings of XORed bytes as the numbers they denote. -/
theorem distcmpLoop_eq : ∀ (ts as bs : List UInt8), as.length = ts.length →
    bs.length = ts.length →
    distcmpLoop ts as bs =
      cmpNat (value (List.zipWith (· ^^^ ·) as ts)) (value (List.zipWith (· ^^^ ·) bs ts))
  | [], [], [], _, _ => by simp [distcmpLoop, cmpNat]
  | t :: ts, a :: as, b :: bs, ha, hb => by
    have ha' : as.length = ts.length := by simpa using ha
    have hb' : bs.length = ts.length := by simpa using hb
    have hlen : (List.zipWith (· ^^^ ·) as ts).length =
        (List.zipWith (· ^^^ ·) bs ts).length := by
      simp [ha', hb']
    rw [distcmpLoop, List.zipWith_cons_cons, List.zipWith_cons_cons]
    rcases Std.lt_trichotomy (a ^^^ t) (b ^^^ t) with hlt | heq | hgt
    · -- the first differing byte decides
      have hv := value_cons_lt_of_lt hlen hlt
      rw [cmpNat, if_neg (UInt8.lt_asymm hlt), if_pos hlt, if_pos hv]
    · -- equal bytes: the rest decides
      have hgt' : ¬(a ^^^ t) > (b ^^^ t) := heq ▸ UInt8.lt_irrefl _
      have hlt' : ¬(a ^^^ t) < (b ^^^ t) := heq ▸ UInt8.lt_irrefl _
      rw [if_neg hgt', if_neg hlt', distcmpLoop_eq ts as bs ha' hb', ← heq]
      simp only [cmpNat, value_cons_lt_cons_iff _ hlen, value_cons_inj _ hlen]
    · have hv := value_cons_lt_of_lt hlen.symm hgt
      rw [cmpNat, if_pos hgt, if_neg (Nat.not_lt.mpr hv.le), if_neg (Nat.ne_of_gt hv)]
  | [], _ :: _, _, ha, _ => by simp at ha
  | [], [], _ :: _, _, hb => by simp at hb
  | _ :: _, [], _, ha, _ => by simp at ha
  | _ :: _, _ :: _, [], _, hb => by simp at hb

/-- The XORed bytes of two hashes denote their XOR distance. -/
theorem value_zipWith_hashBytes (target a : Hash) :
    value (List.zipWith (· ^^^ ·) (hashBytes a) (hashBytes target)) = xorDist target a := by
  -- the XOR of two 256-bit numbers has 256 bits
  have h : a.val ^^^ target.val < 256 ^ 32 :=
    (Nat.xor_lt_two_pow a.isLt target.isLt).trans_eq (by norm_num)
  rw [hashBytes, hashBytes, ← lowBytes_xor, value_lowBytes, Nat.mod_eq_of_lt h]
  rfl

/-- **`distcmp` compares the XOR distances** of `a` and `b` from the target. -/
theorem distcmp_eq (target a b : Hash) :
    distcmp target a b = cmpNat (xorDist target a) (xorDist target b) := by
  rw [distcmp, distcmpLoop_eq _ _ _ (by simp [hashBytes]) (by simp [hashBytes]),
    value_zipWith_hashBytes, value_zipWith_hashBytes]

theorem distcmp_pos_iff {target a b : Hash} :
    0 < distcmp target a b ↔ xorDist target b < xorDist target a := by
  rw [distcmp_eq, cmpNat]
  split_ifs <;> omega

theorem distcmp_neg_iff {target a b : Hash} :
    distcmp target a b < 0 ↔ xorDist target a < xorDist target b := by
  rw [distcmp_eq, cmpNat]
  split_ifs <;> omega

theorem distcmp_nonpos_iff {target a b : Hash} :
    distcmp target a b ≤ 0 ↔ xorDist target a ≤ xorDist target b := by
  rw [distcmp_eq, cmpNat]
  split_ifs <;> omega

/-! ### A push is an insertion by XOR distance -/

/-- The XOR distance of a node from the target. -/
def nodeDist (target : Hash) (n : Node) : Nat := xorDist target (nodeHash n.id)

variable {nodeHash}

/-- The search of `push` finds where `TopK.insert` puts the node: past the entries no farther
from the target. -/
theorem push_search {entries : List Node} {target : Hash} (n : Node)
    (hsorted : entries.Pairwise fun a b => nodeDist nodeHash target a ≤ nodeDist nodeHash target b) :
    GoSort.search entries.length (fun i =>
        decide (distcmp target (nodeHash (entries.getD i n).id) (nodeHash n.id) > 0)) =
      (entries.takeWhile fun b =>
        decide ¬nodeDist nodeHash target n < nodeDist nodeHash target b).length := by
  -- the test at an entry is whether it is farther than `n`
  have htest : (fun i => decide (distcmp target (nodeHash (entries.getD i n).id)
      (nodeHash n.id) > 0)) = fun i => decide (nodeDist nodeHash target n <
        nodeDist nodeHash target (entries.getD i n)) :=
    funext fun i => decide_eq_decide.mpr distcmp_pos_iff
  have hmono : entries.Pairwise fun a b =>
      decide (nodeDist nodeHash target n < nodeDist nodeHash target a) = true →
        decide (nodeDist nodeHash target n < nodeDist nodeHash target b) = true :=
    hsorted.imp fun hab ha => decide_eq_true ((of_decide_eq_true ha).trans_le hab)
  rw [htest, GoSort.search_eq_length_takeWhile n hmono]
  simp only [decide_not]

/-- Cutting `n :: s` to the length of `s` drops the last element of `s`. -/
theorem take_length_cons_eq_dropLast {s : List Node} (hs : s ≠ []) (n : Node) :
    (n :: s).take s.length = n :: s.dropLast := by
  obtain ⟨m, hm⟩ : ∃ m, s.length = m + 1 := ⟨s.length - 1, by
    have := List.length_pos_of_ne_nil hs
    omega⟩
  rw [hm, List.take_succ_cons, List.dropLast_eq_take, hm, Nat.add_sub_cancel]

/-- **`nodesByDistance.push` is `TopK.push` for the XOR distance**, on entries sorted by it and
no more than `maxElems` of them. -/
theorem NodesByDistance.push_entries {h : NodesByDistance} {n : Node} {k : Nat}
    (hsorted : h.entries.Pairwise fun a b =>
      nodeDist nodeHash h.target a ≤ nodeDist nodeHash h.target b)
    (hlen : h.entries.length ≤ k) :
    h.push nodeHash n k = ⟨TopK.push (nodeDist nodeHash h.target) k h.entries n, h.target⟩ := by
  obtain ⟨entries, target⟩ := h
  simp only at hsorted hlen
  rw [NodesByDistance.push]
  simp only
  rw [push_search n hsorted, TopK.push, TopK.insert_eq]
  generalize hp : entries.takeWhile (fun b =>
    decide ¬nodeDist nodeHash target n < nodeDist nodeHash target b) = p
  generalize hs : entries.dropWhile (fun b =>
    decide ¬nodeDist nodeHash target n < nodeDist nodeHash target b) = s
  have hl : entries = p ++ s := by rw [← hp, ← hs, List.takeWhile_append_dropWhile]
  subst hl
  simp only [List.length_append] at hlen ⊢
  by_cases hroom : p.length + s.length < k
  · -- room left: `n` is appended and then slid into place
    rw [if_pos hroom, if_neg (by simp), GoSlice.copyAt_slide_set _ _ (by simp)]
    simp [List.take_of_length_le (show (p ++ n :: s).length ≤ k by simp; omega),
      List.dropLast_append_of_ne_nil]
  · rw [if_neg hroom, List.length_append]
    by_cases hend : p.length = p.length + s.length
    · -- farther than all: nothing changes
      have hs' : s = [] := List.eq_nil_of_length_eq_zero (by omega)
      subst hs'
      rw [if_pos hend]
      simp only [List.append_nil]
      rw [List.take_left' (by omega)]
    · -- the last entry falls off
      have hs' : s ≠ [] := fun h0 => hend (by simp [h0])
      rw [if_neg hend, GoSlice.copyAt_slide_set _ _ (by simp; omega),
        show k = p.length + s.length by omega, List.take_length_add_append,
        take_length_cons_eq_dropLast hs' n]
      simp

/-! ### The nearest nodes -/

section Nearest

variable (nodeHash)

/-- What `closest` promises of `res` among the nodes `all`: `min k |all|` nodes of `all`, of
distinct IDs, in order of `distcmp` to the target, and no node left out closer to it than a
node kept. -/
structure Nearest (target : Hash) (k : Nat) (all res : List Node) : Prop where
  length_eq : res.length = min k all.length
  nodup : (res.map Node.id).Nodup
  mem : ∀ n ∈ res, n ∈ all
  sorted : res.Pairwise fun a b => distcmp target (nodeHash a.id) (nodeHash b.id) ≤ 0
  no_closer : ∀ y ∈ all, y ∉ res → ∀ a ∈ res,
    ¬distcmp target (nodeHash y.id) (nodeHash a.id) < 0

/-- All entries of the table, bucket by bucket. -/
def Table.entries (tab : Table) : List Node :=
  (List.finRange nBuckets).flatMap fun b => (tab.buckets b).entries

variable {nodeHash}

/-- The `k` least by XOR distance are the nearest. -/
theorem nearest_of_least {target : Hash} {k : Nat} {all res : List Node}
    (hall : (all.map Node.id).Nodup) (h : TopK.Least (nodeDist nodeHash target) k all res) :
    Nearest nodeHash target k all res where
  length_eq := h.length_eq
  nodup := h.nodup_map Node.id hall
  mem := fun _ hn => h.mem hn
  sorted := h.sorted.imp distcmp_nonpos_iff.mpr
  no_closer := fun _ hy hyl _ ha hlt =>
    Nat.not_lt.mpr (h.le_of_not_mem ha hy hyl) (distcmp_neg_iff.mp hlt)

/-- A run of pushes from entries that are the `k` least of some nodes is a run of
`TopK.push`. -/
theorem foldl_push {target : Hash} {k : Nat} : ∀ (xs : List Node) {seen entries : List Node},
    TopK.Least (nodeDist nodeHash target) k seen entries →
    xs.foldl (fun (c : NodesByDistance) n => c.push nodeHash n k) ⟨entries, target⟩ =
      ⟨xs.foldl (TopK.push (nodeDist nodeHash target) k) entries, target⟩
  | [], _, _, _ => rfl
  | x :: xs, _, _, h => by
    have hlen : _ ≤ k := h.length_eq ▸ Nat.min_le_left k _
    rw [List.foldl_cons, List.foldl_cons, NodesByDistance.push_entries h.sorted hlen]
    exact foldl_push xs (h.push x)

/-- **Pushes in any order keep the nearest** of the nodes pushed. -/
theorem pushAll_nearest (target : Hash) (k : Nat) {xs : List Node} (hxs : (xs.map Node.id).Nodup) :
    Nearest nodeHash target k xs
      (xs.foldl (fun (c : NodesByDistance) n => c.push nodeHash n k) ⟨[], target⟩).entries := by
  have hnil : TopK.Least (nodeDist nodeHash target) k [] [] := TopK.least_nil k
  have hleast := hnil.foldl xs
  rw [List.nil_append] at hleast
  rw [foldl_push xs (TopK.least_nil k)]
  exact nearest_of_least hxs hleast

namespace Table

variable {tab : Table}

/-- `closest` pushes the entries of the table in order. -/
theorem closest_eq (tab : Table) (target : Hash) (k : Nat) :
    tab.closest nodeHash target k =
      tab.entries.foldl (fun (c : NodesByDistance) n => c.push nodeHash n k) ⟨[], target⟩ := by
  rw [closest, entries, List.foldl_flatMap]

theorem len_foldl (tab : Table) : ∀ (bs : List (Fin nBuckets)) (acc : Nat),
    bs.foldl (fun n b => n + (tab.buckets b).entries.length) acc =
      acc + (bs.flatMap fun b => (tab.buckets b).entries).length
  | [], acc => by simp
  | b :: bs, acc => by
    rw [List.foldl_cons, len_foldl tab bs, List.flatMap_cons, List.length_append]
    omega

/-- `len` counts the entries. -/
theorem len_eq_length_entries (tab : Table) : tab.len = tab.entries.length := by
  rw [len, len_foldl, entries, Nat.zero_add]

/-- In a shaped table no ID is an entry twice: each bucket has distinct IDs, and an ID has one
bucket. -/
theorem Shaped.nodup_entries (h : tab.Shaped nodeHash) : (tab.entries.map Node.id).Nodup := by
  rw [entries, List.map_flatMap, List.nodup_flatMap]
  refine ⟨fun b _ => (h b).entries_nodup, (List.nodup_finRange nBuckets).imp fun hne => ?_⟩
  intro x hxa hxb
  obtain ⟨na, hna, rfl⟩ := List.mem_map.mp hxa
  obtain ⟨nb, hnb, hid⟩ := List.mem_map.mp hxb
  have ha := (h _).placed na (.inl hna)
  have hb := (h _).placed nb (.inl hnb)
  rw [hid] at hb
  exact hne (ha.symm.trans hb)

/-- **`closest` returns the nearest entries of the table**: `min k tab.len()` distinct entries,
sorted by `distcmp` to the target, and no entry left out is closer than one returned; and
pushes of distinct nodes in any order keep the nearest of them. -/
theorem closest_nearest (tab : Table) (htab : tab.Shaped nodeHash) (target : Hash) (k : Nat) :
    Nearest nodeHash target k tab.entries (tab.closest nodeHash target k).entries ∧
      (tab.closest nodeHash target k).entries.length = min k tab.len ∧
      ∀ xs : List Node, (xs.map Node.id).Nodup →
        Nearest nodeHash target k xs
          (xs.foldl (fun (c : NodesByDistance) n => c.push nodeHash n k) ⟨[], target⟩).entries := by
  have hnear : Nearest nodeHash target k tab.entries (tab.closest nodeHash target k).entries := by
    rw [closest_eq]
    exact pushAll_nearest target k htab.nodup_entries
  exact ⟨hnear, by rw [hnear.length_eq, len_eq_length_entries],
    fun xs hxs => pushAll_nearest target k hxs⟩

/-- A hash that keeps the low 256 bits of an ID, so that small IDs hash apart. -/
def lowBits (id : NodeID) : Hash := ⟨id.val % 2 ^ 256, Nat.mod_lt _ (Nat.two_pow_pos 256)⟩

/-- A table of two entries in two buckets, added one after the other. -/
def twoEntries : Table :=
  run lowBits (fun _ => false) (Table.new ⟨0, []⟩) [.add ⟨1, []⟩, .add ⟨2, []⟩]

theorem closest_nearest_twoEntries :
    twoEntries.Shaped lowBits ∧
      (Nearest lowBits 5 1 twoEntries.entries (twoEntries.closest lowBits 5 1).entries ∧
        (twoEntries.closest lowBits 5 1).entries.length = min 1 twoEntries.len ∧
        ∀ xs : List Node, (xs.map Node.id).Nodup →
          Nearest lowBits 5 1 xs
            (xs.foldl (fun (c : NodesByDistance) n => c.push lowBits n 1) ⟨[], 5⟩).entries) :=
  ⟨shaped_run _ (shaped_new _) _,
    closest_nearest twoEntries (shaped_run _ (shaped_new _) _) 5 1⟩

end Table

end Nearest

/-! ### Random nodes -/

theorem shuffle_perm : ∀ (i : Nat) (draws : List Nat) (buckets : List (List Node)),
    (shuffle buckets i draws).Perm buckets
  | 0, _, _ => List.Perm.refl _
  | i + 1, draws, _ => (shuffle_perm i draws.tail _).trans (GoHeap.swap_perm _ _ _)

section PopHead

variable {buckets : List (List Node)} {j : Nat} {x : Node} {b' : List Node}

/-- Taking the head of a bucket takes one node out of all of them. -/
theorem popHead_perm (hj : buckets[j]? = some (x :: b')) :
    (x :: (popHead buckets j x b').flatten).Perm buckets.flatten := by
  obtain ⟨hlt, hget⟩ := List.getElem?_eq_some_iff.mp hj
  -- the buckets around bucket `j`
  have hsplit : buckets = buckets.take j ++ (x :: b') :: buckets.drop (j + 1) := by
    rw [← hget, List.getElem_cons_drop, List.take_append_drop]
  have hset : buckets.set j b' = buckets.take j ++ b' :: buckets.drop (j + 1) := by
    rw [List.set_eq_take_append_cons_drop, if_pos hlt]
  have hflat : (popHead buckets j x b').flatten =
      (buckets.take j).flatten ++ b' ++ (buckets.drop (j + 1)).flatten := by
    rw [popHead]
    split_ifs with hone
    · -- the bucket ran out and is cut out
      have hb' : b' = [] := List.eq_nil_of_length_eq_zero (by simpa using hone)
      rw [List.eraseIdx_set_eq, List.eraseIdx_eq_take_drop_succ, hb']
      simp
    · rw [hset]
      simp
  rw [hflat]
  conv => rhs; rw [hsplit]
  simp only [List.flatten_append, List.flatten_cons, List.append_assoc, List.cons_append]
  exact List.perm_middle.symm

/-- No bucket left is empty. -/
theorem popHead_ne_nil (hne : ∀ b ∈ buckets, b ≠ []) : ∀ b ∈ popHead buckets j x b', b ≠ [] := by
  intro b hb
  rw [popHead] at hb
  split_ifs at hb with hone
  · obtain ⟨i, hi, hij, rfl⟩ := List.mem_eraseIdx_iff_getElem.mp hb
    rw [List.getElem_set_ne (Ne.symm hij)]
    exact hne _ (List.getElem_mem _)
  · rcases List.mem_or_eq_of_mem_set hb with hb | rfl
    · exact hne b hb
    · simpa using hone

end PopHead

/-- **The loop moves nodes out of the buckets**, one per round: the nodes written and the
nodes left are those it started with. When they run out first, it breaks with `i` at the last
node written; when the rounds run out first, `i` is `len(buf)`, the number written. -/
theorem fillLoop_spec : ∀ (rest j : Nat) (buckets : List (List Node)) (written : List Node),
    (∀ b ∈ buckets, b ≠ []) → j < buckets.length →
    ∃ i w rem, fillLoop rest j buckets written = some (i, w) ∧
      (w ++ rem).Perm (written ++ buckets.flatten) ∧
      (buckets.flatten.length ≤ rest → rem = [] ∧ i + 1 = w.length) ∧
      (rest < buckets.flatten.length → i = w.length ∧ w.length = written.length + rest)
  | 0, j, buckets, written, hne, hj => by
    -- a bucket is left, so a node is
    have hpos : 0 < buckets.flatten.length := by
      have hb := hne _ (List.getElem_mem hj)
      have : buckets[j].length ≤ buckets.flatten.length :=
        List.Sublist.length_le (List.sublist_flatten_of_mem (List.getElem_mem hj))
      have := List.length_pos_of_ne_nil hb
      omega
    exact ⟨written.length, written, buckets.flatten, by rw [fillLoop], List.Perm.refl _,
      fun h => absurd h (by omega), fun _ => ⟨rfl, rfl⟩⟩
  | rest + 1, j, buckets, written, hne, hj => by
    obtain ⟨x, b', hget⟩ : ∃ x b', buckets[j] = x :: b' :=
      List.exists_cons_of_ne_nil (hne _ (List.getElem_mem hj))
    have hj' : buckets[j]? = some (x :: b') := List.getElem?_eq_some_iff.mpr ⟨hj, hget⟩
    have hperm := popHead_perm hj'
    have hne' : ∀ b ∈ popHead buckets j x b', b ≠ [] := popHead_ne_nil hne
    have hlen := hperm.length_eq
    rw [List.length_cons] at hlen
    rw [fillLoop, hj']
    simp only
    split_ifs with hout
    · -- the nodes ran out with `x`
      have hnil : (popHead buckets j x b').flatten = [] := by
        rw [List.length_eq_zero_iff] at hout
        rw [hout, List.flatten_nil]
      rw [hnil] at hperm hlen
      have hone : buckets.flatten.length = 1 := by simpa using hlen.symm
      refine ⟨written.length, written ++ [x], [], by simp, ?_, fun _ => ⟨rfl, by simp⟩,
        fun h => absurd h (by omega)⟩
      rw [List.append_nil]
      exact hperm.symm.append_left written |>.symm
    · -- the rounds go on from the next bucket
      obtain ⟨i, w, rem, hrun, hw, hdone, hfull⟩ := fillLoop_spec rest _ _ (written ++ [x]) hne'
        (Nat.mod_lt _ (Nat.pos_of_ne_zero hout))
      refine ⟨i, w, rem, hrun, ?_, fun h => hdone (by omega), fun h => ?_⟩
      · refine hw.trans ?_
        rw [List.append_assoc, List.singleton_append]
        exact hperm.append_left written
      · obtain ⟨h1, h2⟩ := hfull (by omega)
        exact ⟨h1, by simp at h2; omega⟩

namespace Table

/-- The nonempty buckets hold all the entries. -/
theorem flatten_nonemptyBuckets (tab : Table) : tab.nonemptyBuckets.flatten = tab.entries := by
  have hfilter : tab.nonemptyBuckets =
      ((List.finRange nBuckets).map fun b => (tab.buckets b).entries).filter
        fun e => !e.isEmpty := by
    refine List.filter_congr fun e _ => ?_
    cases e <;> simp
  rw [hfilter, List.flatten_filter_not_isEmpty, ← List.flatMap_def, entries]

theorem ne_nil_of_mem_nonemptyBuckets {tab : Table} {b : List Node}
    (hb : b ∈ tab.nonemptyBuckets) : b ≠ [] :=
  List.ne_nil_of_length_pos (of_decide_eq_true (List.mem_filter.mp hb).2)

/-- **What `ReadRandomNodes` writes and returns**, for any draws: the nodes written are entries
of the table, none twice, all of them if they fit and else `len(buf)` of them; the count is the
number of entries if they fit, and else `len(buf) + 1`. -/
theorem readRandomNodes_spec (tab : Table) (draws : List Nat) (bufLen : Nat) :
    ∃ n w rem, tab.readRandomNodes true draws bufLen = some (n, w) ∧
      (w ++ rem).Perm tab.entries ∧
      (tab.len ≤ bufLen → rem = [] ∧ n = tab.len) ∧
      (bufLen < tab.len → n = bufLen + 1 ∧ w.length = bufLen) := by
  rw [len_eq_length_entries, ← flatten_nonemptyBuckets]
  by_cases hempty : tab.nonemptyBuckets.length = 0
  · -- no entries: nothing is written
    have hnil : tab.nonemptyBuckets = [] := List.eq_nil_of_length_eq_zero hempty
    refine ⟨0, [], [], by simp [readRandomNodes, hempty], by simp [hnil], fun _ => ?_,
      fun h => absurd h (by simp [hnil])⟩
    simp [hnil]
  · -- the shuffled buckets hold the same nodes
    have hperm := shuffle_perm (tab.nonemptyBuckets.length - 1) draws tab.nonemptyBuckets
    have hne : ∀ b ∈ shuffle tab.nonemptyBuckets (tab.nonemptyBuckets.length - 1) draws,
        b ≠ [] := fun b hb => ne_nil_of_mem_nonemptyBuckets (hperm.mem_iff.mp hb)
    have hflat := hperm.flatten
    obtain ⟨i, w, rem, hrun, hw, hdone, hfull⟩ := fillLoop_spec bufLen 0 _ [] hne
      (by rw [hperm.length_eq]; omega)
    rw [List.nil_append] at hw
    have hlen := hflat.length_eq
    refine ⟨i + 1, w, rem, ?_, hw.trans hflat, fun h => ?_, fun h => ?_⟩
    · simp [readRandomNodes, hempty, hrun]
    · obtain ⟨hrem, hi⟩ := hdone (by omega)
      subst hrem
      have := (hw.trans hflat).length_eq
      simp only [List.append_nil] at this
      exact ⟨rfl, by omega⟩
    · obtain ⟨hi, hw'⟩ := hfull (by omega)
      exact ⟨by simp at hw'; omega, by simpa using hw'⟩

/-- **`ReadRandomNodes` returns one more than it wrote when `buf` is too short for the table.**
The loop then ends with `i = len(buf)`, and `return i + 1` counts a node that is not there; the
nodes written are `len(buf)` distinct entries of the table. -/
theorem readRandomNodes_overcounts (tab : Table) (draws : List Nat) (bufLen : Nat)
    (hshort : bufLen < tab.len) :
    ∃ w rem, tab.readRandomNodes true draws bufLen = some (bufLen + 1, w) ∧
      w.length = bufLen ∧ (w ++ rem).Perm tab.entries := by
  obtain ⟨n, w, rem, hrun, hw, -, hfull⟩ := tab.readRandomNodes_spec draws bufLen
  obtain ⟨rfl, hlen⟩ := hfull hshort
  exact ⟨w, rem, hrun, hlen, hw⟩

/-- A table of one entry, in its first bucket. -/
def oneEntry : Table :=
  (Table.new ⟨0, []⟩).setBucket ⟨0, nBuckets_pos⟩ ⟨[⟨1, []⟩], [], DistinctNetSet.empty 24 2⟩

theorem readRandomNodes_overcounts_oneEntry :
    0 < oneEntry.len ∧ ∃ w rem, oneEntry.readRandomNodes true [] 0 = some (0 + 1, w) ∧
      w.length = 0 ∧ (w ++ rem).Perm oneEntry.entries :=
  ⟨by decide, readRandomNodes_overcounts oneEntry [] 0 (by decide)⟩

example : oneEntry.readRandomNodes true [] 0 = some (1, []) := by decide

end Table

end Discover
