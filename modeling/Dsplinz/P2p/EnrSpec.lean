import Dsplinz.P2p.Enr
import Dsplinz.Rlp.RawSpec

/-!
# The pairs of a node record, and its encoding

A node record keeps its key/value pairs strictly increasing by key, and its signed
encoding is read back by `DecodeRLP`. This file shows both, over the model of
`Dsplinz.P2p.Enr`.

`Set` finds the place of a key by binary search and, by three branches of a `switch`,
overwrites the value there, inserts the pair before it, or appends it. Over increasing
pairs the three come to one description, `Enr.Record.insertPair_eq`: the pairs below the
key, the new pair, the pairs above it. From it, a run of `Set` calls keeps the pairs
increasing and `Load` returns what the last `Set` of a key stored.

The encoding is the list `[sig, seq, k₁, v₁, …]` of RLP items, the values copied raw.
`DecodeRLP` reads it back with the methods of the stream, whose specifications
`Dsplinz.Rlp.StreamSpec` gives; its loop over the pairs checks each key against the one
before. On the encoding of a list of items, the loop computes `Enr.Record.scanPairs`,
the same checks on the keys alone.

| step | on the encoding | theorem |
|---|---|---|
| `Set` | the pairs below, the pair, the pairs above | `Enr.Record.insertPair_eq` |
| `Load` | the value stored under the key | `Enr.Record.load_eq` |
| `encode` | the items of the record | `Enr.Record.encode_ok_items` |
| the loop of `DecodeRLP` | `scanPairs` | `Enr.Record.run_decodePairs` |
| `DecodeRLP` | the record, or the first failed check | `Enr.Record.decodeBytes_items` |

Together: a record signed by `SetSig` is read back whole (`Enr.Record.decodeBytes_setSig`),
and an encoding whose keys are out of order, repeated or left without a value is rejected
(`Enr.Record.decodeBytes_bad_pairs`). The values must be encodings of items, as the
contract of `rlp.Encoder` asks of what an entry writes: `DecodeRLP` reads each value back
with `Raw`, which accepts nothing else.
-/

namespace Enr

open ExceptState PanicState

/-! ### Go's order of strings -/

section Order

variable {a b c : List UInt8}

theorem key_lt_of_lt_of_le (hab : a < b) (hbc : b ≤ c) : a < c := by
  by_contra hac
  have hca : c ≤ a := List.not_lt.mp hac
  exact List.not_lt.mpr (List.le_trans hbc hca) hab

theorem key_lt_of_le_of_ne (hab : a ≤ b) (hne : a ≠ b) : a < b := by
  by_contra hlt
  exact hne (List.le_antisymm hab (List.not_lt.mp hlt))

theorem key_lt_trans (hab : a < b) (hbc : b < c) : a < c := List.lt_trans hab hbc

theorem key_lt_or_gt_of_ne (hne : a ≠ b) : a < b ∨ b < a := by
  by_cases hab : a < b
  · exact Or.inl hab
  · exact Or.inr (key_lt_of_le_of_ne (List.not_lt.mp hab) (Ne.symm hne))

end Order

namespace Record

/-! ### Increasing pairs -/

/-- The pairs are strictly increasing by key: each key once, in Go's order of strings. -/
def Sorted (pairs : List Pair) : Prop :=
  pairs.Pairwise fun a b => a.k < b.k

/-- The value stored under `key`. -/
def lookup (pairs : List Pair) (key : List UInt8) : Option (List UInt8) :=
  (pairs.find? fun p => p.k = key).map Pair.v

section Search

variable {pairs : List Pair} (h : Sorted pairs) (key : List UInt8)
include h

theorem searchKey_monotone :
    GoSort.Monotone pairs.length fun i => decide (key ≤ (pairs.getD i ⟨[], []⟩).k) := by
  intro a b hab hb ha
  have hka : key ≤ (pairs.getD a ⟨[], []⟩).k := of_decide_eq_true ha
  apply decide_eq_true
  rcases Nat.lt_or_eq_of_le hab with hlt | rfl
  · have hab' : (pairs.getD a ⟨[], []⟩).k < (pairs.getD b ⟨[], []⟩).k := by
      rw [List.getD_eq_getElem _ _ (by omega), List.getD_eq_getElem _ _ hb]
      exact List.pairwise_iff_getElem.mp h a b (by omega) hb hlt
    exact List.le_of_lt (List.lt_of_le_of_lt hka hab')
  · exact hka

/-- The search result, as `GoSort.search_spec` describes it. -/
theorem searchKey_spec :
    GoSort.IsFirst pairs.length (fun i => decide (key ≤ (pairs.getD i ⟨[], []⟩).k))
      (searchKey pairs key) :=
  GoSort.search_spec (searchKey_monotone h key)

/-- The pairs before the search result have the smaller keys. -/
theorem lt_of_mem_take {p : Pair} (hp : p ∈ pairs.take (searchKey pairs key)) : p.k < key := by
  obtain ⟨j, hj, rfl⟩ := List.mem_iff_getElem.mp hp
  rw [List.length_take] at hj
  have hfalse := (searchKey_spec h key).before j (by omega)
  rw [List.getElem_take, ← List.getD_eq_getElem _ ⟨[], []⟩]
  simpa using hfalse

/-- The pairs from the search result on have keys not below `key`. -/
theorem le_of_mem_drop {p : Pair} (hp : p ∈ pairs.drop (searchKey pairs key)) : key ≤ p.k := by
  obtain ⟨j, hj, rfl⟩ := List.mem_iff_getElem.mp hp
  rw [List.length_drop] at hj
  have hat := (searchKey_spec h key).at_ (by omega)
  have hle : key ≤ (pairs.getD (searchKey pairs key) ⟨[], []⟩).k := of_decide_eq_true hat
  rw [List.getD_eq_getElem _ _ (by omega)] at hle
  simp only [List.getElem_drop]
  rcases Nat.eq_zero_or_pos j with rfl | hpos
  · simpa using hle
  · -- a later pair has a greater key than the one at the search result
    exact List.le_of_lt (List.lt_of_le_of_lt hle
      (List.pairwise_iff_getElem.mp h _ _ (by omega) (by omega) (by omega)))

theorem filter_lt_eq_take : pairs.filter (fun p => p.k < key) = pairs.take (searchKey pairs key) := by
  conv_lhs => rw [← List.take_append_drop (searchKey pairs key) pairs]
  rw [List.filter_append, List.filter_eq_self.mpr fun p hp => by simpa using lt_of_mem_take h key hp,
    List.filter_eq_nil_iff.mpr fun p hp hlt => ?_, List.append_nil]
  exact List.not_lt.mpr (le_of_mem_drop h key hp) (by simpa using hlt)

theorem filter_gt_eq_drop :
    pairs.filter (fun p => key < p.k) = (pairs.drop (searchKey pairs key)).filter (fun p => key < p.k) := by
  conv_lhs => rw [← List.take_append_drop (searchKey pairs key) pairs]
  rw [List.filter_append, List.filter_eq_nil_iff.mpr fun p hp hlt =>
    List.lt_asymm (lt_of_mem_take h key hp) (by simpa using hlt), List.nil_append]

end Search

/-- The rest of increasing pairs after the one at `i` has the greater keys. -/
theorem lt_of_mem_drop_succ {pairs : List Pair} (h : Sorted pairs) {i : Nat} (hi : i < pairs.length)
    {p : Pair} (hp : p ∈ pairs.drop (i + 1)) : pairs[i].k < p.k := by
  have hsorted := List.Pairwise.sublist (List.drop_sublist i pairs) h
  rw [List.drop_eq_getElem_cons hi] at hsorted
  exact (List.pairwise_cons.mp hsorted).1 p hp

/-- **What `Set` does to increasing pairs**, by whichever of its three branches: the pairs
below the key, the new pair, the pairs above the key. -/
theorem insertPair_eq {pairs : List Pair} (h : Sorted pairs) (key blob : List UInt8) :
    insertPair pairs key blob =
      pairs.filter (fun p => p.k < key) ++ ⟨key, blob⟩ :: pairs.filter (fun p => key < p.k) := by
  have hdrop_le := fun p => le_of_mem_drop (p := p) h key
  have hlen := (searchKey_spec h key).le
  rw [filter_lt_eq_take h, filter_gt_eq_drop h]
  unfold insertPair
  dsimp only
  generalize searchKey pairs key = i at hdrop_le hlen ⊢
  split_ifs with hhit hin
  · -- the key is there: its value is overwritten
    obtain ⟨hlt, hk⟩ := hhit
    rw [List.getD_eq_getElem _ _ hlt] at hk
    have hdrop : (pairs.drop i).filter (fun p => key < p.k) = pairs.drop (i + 1) := by
      rw [List.drop_eq_getElem_cons hlt, List.filter_cons_of_neg (by simp [hk, List.lt_irrefl]),
        List.filter_eq_self]
      intro p hp
      simpa [← hk] using lt_of_mem_drop_succ h hlt hp
    rw [List.modify_eq_take_cons_drop hlt, hdrop, ← hk]
  · -- a greater key is there: the pair goes before it
    have hne : pairs[i].k ≠ key := by
      rw [← List.getD_eq_getElem _ ⟨[], []⟩ hin]
      exact fun he => hhit ⟨hin, he⟩
    have hat : key < pairs[i].k :=
      key_lt_of_le_of_ne (hdrop_le _ (by rw [List.drop_eq_getElem_cons hin]; exact List.mem_cons_self))
        (Ne.symm hne)
    have hall : ∀ p ∈ pairs.drop i, key < p.k := by
      intro p hp
      rw [List.drop_eq_getElem_cons hin] at hp
      rcases List.mem_cons.mp hp with rfl | hp
      · exact hat
      · exact key_lt_trans hat (lt_of_mem_drop_succ h hin hp)
    obtain ⟨l₁, l₂, hl, hl₁, hins⟩ :=
      List.exists_of_modifyTailIdx (List.cons ⟨key, blob⟩) (i := i) (l := pairs) hlen
    have htake : l₁ = pairs.take i := by rw [hl, List.take_left' hl₁]
    have hdrop : l₂ = pairs.drop i := by rw [hl, List.drop_left' hl₁]
    rw [List.insertIdx, hins, htake, hdrop, List.filter_eq_self.mpr (by simpa using hall)]
  · -- every key is below: the pair goes last
    obtain rfl : i = pairs.length := by omega
    rw [List.take_length, List.drop_length, List.filter_nil]

theorem sorted_insertPair {pairs : List Pair} (h : Sorted pairs) (key blob : List UInt8) :
    Sorted (insertPair pairs key blob) := by
  rw [insertPair_eq h]
  unfold Sorted
  rw [List.pairwise_append, List.pairwise_cons]
  refine ⟨h.filter _, ⟨fun p hp => by simpa using (List.mem_filter.mp hp).2, h.filter _⟩, ?_⟩
  -- the keys below come before the key, and before the keys above
  intro a ha b hb
  have ha' : a.k < key := by simpa using (List.mem_filter.mp ha).2
  rcases List.mem_cons.mp hb with rfl | hb
  · exact ha'
  · exact key_lt_trans ha' (by simpa using (List.mem_filter.mp hb).2)

/-- A search among the filtered elements, when the filter keeps all that it looks for. -/
theorem find?_filter_of_imp {α : Type} {q r : α → Bool} {l : List α}
    (h : ∀ a ∈ l, q a = true → r a = true) : (l.filter r).find? q = l.find? q := by
  rw [List.find?_filter]
  refine List.find?_congr fun a ha => ?_
  cases hq : q a <;> simp [hq, h a ha]

/-- A search among the filtered elements, when the filter drops all that it looks for. -/
theorem find?_filter_eq_none {α : Type} {q r : α → Bool} {l : List α}
    (h : ∀ a ∈ l, q a = true → r a = false) : (l.filter r).find? q = none := by
  rw [List.find?_eq_none]
  intro a ha hq
  obtain ⟨hmem, hr⟩ := List.mem_filter.mp ha
  rw [h a hmem hq] at hr
  cases hr

/-- After `Set`, the key holds the new value, and every other key what it held. -/
theorem lookup_insertPair {pairs : List Pair} (h : Sorted pairs) (key blob k : List UInt8) :
    lookup (insertPair pairs key blob) k = if k = key then some blob else lookup pairs k := by
  rw [insertPair_eq h]
  unfold lookup
  rw [List.find?_append, List.find?_cons]
  split_ifs with hk
  · -- no pair below `key` holds it
    subst hk
    rw [find?_filter_eq_none fun p _ hp => by simp at hp ⊢; exact hp ▸ List.lt_irrefl _]
    simp
  · rcases key_lt_or_gt_of_ne hk with hlt | hgt
    · -- `k` is below `key`: only the pairs below can hold it
      rw [find?_filter_of_imp fun p _ hp => by simp at hp ⊢; exact hp ▸ hlt,
        find?_filter_eq_none fun p _ hp => by simp at hp ⊢; exact hp ▸ List.not_lt.mpr (List.le_of_lt hlt)]
      cases pairs.find? (fun p => decide (p.k = k)) <;> simp [Ne.symm hk]
    · -- `k` is above `key`: only the pairs above can hold it
      rw [find?_filter_eq_none fun p _ hp => by simp at hp ⊢; exact hp ▸ List.not_lt.mpr (List.le_of_lt hgt),
        find?_filter_of_imp fun p _ hp => by simp at hp ⊢; exact hp ▸ hgt]
      simp [Ne.symm hk]

/-- The value under a key is at the search result, or nowhere. -/
theorem lookup_eq_search {pairs : List Pair} (h : Sorted pairs) (key : List UInt8) :
    lookup pairs key = (pairs[searchKey pairs key]?.filter fun p => p.k = key).map Pair.v := by
  have hlen := (searchKey_spec h key).le
  unfold lookup
  conv_lhs => rw [← List.take_append_drop (searchKey pairs key) pairs]
  rw [List.find?_append, List.find?_eq_none.mpr fun p hp => by
    simpa using fun he => List.lt_irrefl _ (he ▸ lt_of_mem_take h key hp), Option.none_or]
  have hdrop_le := fun p => le_of_mem_drop (p := p) h key
  generalize searchKey pairs key = i at hlen hdrop_le ⊢
  rcases Nat.lt_or_ge i pairs.length with hi | hi
  · rw [List.drop_eq_getElem_cons hi, List.find?_cons, List.getElem?_eq_getElem hi]
    by_cases hk : pairs[i].k = key
    · simp [hk]
    · -- the pairs after the one at `i` have greater keys still
      have hle := hdrop_le _ (by rw [List.drop_eq_getElem_cons hi]; exact List.mem_cons_self)
      have hgt : key < pairs[i].k := key_lt_of_le_of_ne hle (Ne.symm hk)
      rw [List.find?_eq_none.mpr fun p hp => by
        simpa using fun he => List.lt_irrefl _ (he ▸ key_lt_trans hgt (lt_of_mem_drop_succ h hi hp))]
      simp [hk]
  · rw [List.drop_eq_nil_of_le hi, List.getElem?_eq_none hi]
    rfl

/-- **`Load` returns the value stored under the key**, decoded, and `NotFound` for a key
that holds none. -/
theorem load_eq {α : Type} {r : Record} (h : Sorted r.pairs) (key : List UInt8)
    (dec : List UInt8 → Except Rlp.Error α) :
    r.load key dec = match lookup r.pairs key with
      | some v => (dec v).mapError fun err => ⟨key, .rlp err⟩
      | none => .error ⟨key, .notFound⟩ := by
  rw [lookup_eq_search h]
  unfold load
  cases r.pairs[searchKey r.pairs key]? with
  | none => rfl
  | some p => by_cases hk : p.k = key <;> simp [hk, Option.filter]

/-! ### Runs of `Set` -/

/-- The most recent `Set` of `key` in a run. -/
def lastSet (es : List Entry) (key : List UInt8) : Option Entry :=
  es.reverse.find? fun e => e.key = key

theorem lastSet_cons (e : Entry) (es : List Entry) (key : List UInt8) :
    lastSet (e :: es) key = (lastSet es key).or (if e.key = key then some e else none) := by
  simp only [lastSet, List.reverse_cons, List.find?_append, List.find?_singleton]
  by_cases hk : e.key = key <;> simp [hk]

/-- **A run of `Set` calls**, each with a value the encoder accepts, from a record with
increasing pairs: it completes, the pairs stay increasing, and each key holds the encoding
of its most recent `Set`, or what it held before. -/
theorem run_forM_set : ∀ (es : List Entry) (r : Record), Sorted r.pairs →
    (∀ e ∈ es, ∃ blob, encodeEntry e = .ok blob) →
    ∃ r', run (es.forM set) r = .ok (.ok (), r') ∧ Sorted r'.pairs ∧
      ∀ k, lookup r'.pairs k = match lastSet es k with
        | some e => (encodeEntry e).toOption
        | none => lookup r.pairs k
  | [], r, hr, _ => ⟨r, rfl, hr, fun k => rfl⟩
  | e :: es, r, hr, henc => by
    obtain ⟨blob, hblob⟩ := henc e List.mem_cons_self
    -- the first `Set`, then the others from where it left the record
    obtain ⟨r₁, hset, hpairs⟩ : ∃ r₁, run (set e) r = .ok (.ok (), r₁) ∧
        r₁.pairs = insertPair r.pairs e.key blob := by
      rw [run_set, hblob]
      exact ⟨_, rfl, rfl⟩
    obtain ⟨r', hrun, hsorted, hlook⟩ := run_forM_set es r₁
      (hpairs ▸ sorted_insertPair hr e.key blob) fun e' he' => henc e' (List.mem_cons_of_mem e he')
    refine ⟨r', ?_, hsorted, fun k => ?_⟩
    · show run (set e >>= fun _ => es.forM set) r = _
      rw [run_bind_ok hset]
      exact hrun
    · rw [hlook k, lastSet_cons]
      cases lastSet es k with
      | some e' => rfl
      | none =>
        simp only [Option.none_or, hpairs, lookup_insertPair hr]
        by_cases hk : e.key = k
        · simp [hk, hblob, Except.toOption]
        · simp [hk, Ne.symm hk]

/-! ### The encoding as items -/

/-- The pairs whose values are the encodings of the items `ps` holds. -/
def pairsOf (ps : List (List UInt8 × Rlp.Item)) : List Pair :=
  ps.map fun kt => ⟨kt.1, kt.2.encode⟩

/-- Each key, as a string item, followed by the item of its value. -/
def pairItems (ps : List (List UInt8 × Rlp.Item)) : List Rlp.Item :=
  ps.flatMap fun kt => [.bytes kt.1, kt.2]

/-- The list a record is encoded as: the signature, the sequence number, and the other
elements. -/
def recordItem (sig : List UInt8) (seq : UInt64) (elems : List Rlp.Item) : Rlp.Item :=
  .list (.bytes sig :: .bytes (Rlp.bigBytes seq.toNat) :: elems)

/-- What the loop of `DecodeRLP` makes of the pairs `ps`, keys with the items of their values,
followed by a last element `last` without a value: from the second pair on, each key is
checked against the one before, and a last element is a key with no value, or no key at
all. -/
def scanPairs : Nat → List UInt8 → List (List UInt8 × Rlp.Item) → Option Rlp.Item →
    Except Error (List Pair)
  | _, _, [], none => .ok []
  | _, _, [], some (.bytes _) => .error .incompletePair
  | _, _, [], some (.list _) => .error (.rlp .expectedString)
  | i, prevkey, (k, t) :: ps, last =>
    if i > 0 ∧ k = prevkey then .error .duplicateKey
    else if i > 0 ∧ k < prevkey then .error .notSorted
    else (scanPairs (i + 1) k ps last).map (⟨k, t.encode⟩ :: ·)

theorem sorted_pairsOf_cons {k : List UInt8} {t : Rlp.Item} {ps : List (List UInt8 × Rlp.Item)} :
    Sorted (pairsOf ((k, t) :: ps)) ↔ (∀ kt ∈ ps, k < kt.1) ∧ Sorted (pairsOf ps) := by
  simp only [Sorted, pairsOf, List.map_cons, List.pairwise_cons, List.forall_mem_map]

/-- **The checks of the loop after the first pair**: it accepts exactly the pairs with no
last element whose keys rise from `prevkey` on. -/
theorem scanPairs_succ_eq_ok (i : Nat) (prevkey : List UInt8) (last : Option Rlp.Item) :
    ∀ (ps : List (List UInt8 × Rlp.Item)) {l : List Pair},
    scanPairs (i + 1) prevkey ps last = .ok l ↔
      last = none ∧ (∀ kt ∈ ps, prevkey < kt.1) ∧ Sorted (pairsOf ps) ∧ l = pairsOf ps
  | [], l => by
    rcases last with _ | _ | _ <;> simp [scanPairs, Sorted, pairsOf, eq_comm]
  | (k, t) :: ps, l => by
    have ih := @scanPairs_succ_eq_ok (i + 1) k last ps
    rw [sorted_pairsOf_cons]
    unfold scanPairs
    by_cases hdup : k = prevkey
    · -- a key twice in a row
      subst hdup
      simp [List.lt_irrefl]
    by_cases hlt : k < prevkey
    · -- a key below the one before
      simp only [hdup, hlt, gt_iff_lt, Nat.zero_lt_succ, and_self, if_true, and_false, if_false]
      simp only [reduceCtorEq, false_iff, not_and]
      exact fun _ hall => absurd (hall (k, t) List.mem_cons_self) (List.lt_asymm hlt)
    -- a key above the one before: the rest is checked from it
    have hgt : prevkey < k := key_lt_of_le_of_ne (List.not_lt.mp hlt) (Ne.symm hdup)
    simp only [hdup, hlt, and_false, if_false]
    constructor
    · intro h
      obtain ⟨l', hl', rfl⟩ : ∃ l', scanPairs (i + 1 + 1) k ps last = .ok l' ∧
          l = ⟨k, t.encode⟩ :: l' := by
        cases hs : scanPairs (i + 1 + 1) k ps last <;> simp [hs, Except.map] at h ⊢
        exact h.symm
      obtain ⟨hlast, hall, hsorted, rfl⟩ := ih.mp hl'
      refine ⟨hlast, fun kt hkt => ?_, ⟨hall, hsorted⟩, rfl⟩
      rcases List.mem_cons.mp hkt with rfl | hkt
      · exact hgt
      · exact key_lt_trans hgt (hall kt hkt)
    · rintro ⟨hlast, -, ⟨hall, hsorted⟩, rfl⟩
      rw [ih.mpr ⟨hlast, hall, hsorted, rfl⟩]
      rfl

/-- **The checks of the loop**: it accepts exactly the pairs with no last element whose keys
rise, and returns them. -/
theorem scanPairs_eq_ok {ps : List (List UInt8 × Rlp.Item)} {last : Option Rlp.Item}
    {l : List Pair} :
    scanPairs 0 [] ps last = .ok l ↔ last = none ∧ Sorted (pairsOf ps) ∧ l = pairsOf ps := by
  cases ps with
  | nil => rcases last with _ | _ | _ <;> simp [scanPairs, Sorted, pairsOf, eq_comm]
  | cons kt ps =>
    obtain ⟨k, t⟩ := kt
    rw [sorted_pairsOf_cons]
    simp only [scanPairs, gt_iff_lt, Nat.lt_irrefl, false_and, if_false]
    constructor
    · intro h
      obtain ⟨l', hl', rfl⟩ : ∃ l', scanPairs (0 + 1) k ps last = .ok l' ∧
          l = ⟨k, t.encode⟩ :: l' := by
        cases hs : scanPairs (0 + 1) k ps last <;> simp [hs, Except.map] at h ⊢
        exact h.symm
      obtain ⟨hlast, hall, hsorted, rfl⟩ := (scanPairs_succ_eq_ok 0 k last ps).mp hl'
      exact ⟨hlast, ⟨hall, hsorted⟩, rfl⟩
    · rintro ⟨hlast, ⟨hall, hsorted⟩, rfl⟩
      rw [(scanPairs_succ_eq_ok 0 k last ps).mpr ⟨hlast, hall, hsorted, rfl⟩]
      rfl

theorem length_pairItems : ∀ ps : List (List UInt8 × Rlp.Item),
    (pairItems ps).length = 2 * ps.length
  | [] => rfl
  | _ :: ps => by
    simp only [pairItems, List.flatMap_cons, List.length_append, List.length_cons,
      List.length_nil] at *
    rw [← pairItems, length_pairItems ps]
    omega

/-- The elements `AppendElements` adds for the pairs: each key as a `string`, each value
copied raw, are written as the items of the pairs. -/
theorem writesAs_pairs : ∀ ts : List (List UInt8 × Rlp.Item),
    List.Forall₂ Rlp.WritesAs ((pairsOf ts).flatMap fun p => [.string p.k, .raw p.v])
      (pairItems ts)
  | [] => .nil
  | (k, t) :: ts =>
    .cons (Rlp.writesAs_string k) (.cons (Rlp.writesAs_raw t) (writesAs_pairs ts))

/-- **What `encode` returns** for pairs whose values are item encodings: the encoding of the
record's items, no longer than `SizeLimit`. -/
theorem encode_ok_items {sig : Option (List UInt8)} {r r' : Record} {raw : List UInt8}
    {ts : List (List UInt8 × Rlp.Item)} (hpairs : r.pairs = pairsOf ts)
    (h : PanicState.run (encode sig) r = .ok (.ok raw, r')) :
    raw = (recordItem (sig.getD []) r.seq (pairItems ts)).encode ∧ raw.length ≤ sizeLimit := by
  have hwrites : Rlp.WritesAs (.list (.bytes (sig.getD []) :: r.appendElements))
      (recordItem (sig.getD []) r.seq (pairItems ts)) := by
    have hsig : Rlp.WritesAs (.bytes (sig.getD [])) (.bytes (sig.getD [])) := by
      simpa only [Rlp.Item.toValue] using Rlp.writesAs_toValue (.bytes (sig.getD []))
    refine Rlp.writesAs_list (.cons hsig (.cons (Rlp.writesAs_uint r.seq) ?_))
    rw [hpairs]
    exact writesAs_pairs ts
  obtain ⟨w, hw, hlay, -, hcont⟩ := hwrites
  unfold encode at h
  simp only [PanicState.run_bind, PanicState.run_get, Rlp.encodeToBytes, hw, Except.map] at h
  rcases hout : w.toBytes with _ | out
  · simp [hout] at h
  simp only [hout] at h
  by_cases hbig : out.length > sizeLimit
  · simp [hbig] at h
  simp only [hbig, if_false, PanicState.run_pure, Except.ok.injEq, Prod.mk.injEq] at h
  obtain ⟨rfl, -⟩ := h
  -- the buffer fills the bytes returned, so its size is small
  have hsize : w.size < 2 ^ 64 := by
    have := Rlp.Encbuf.length_toBytes hout
    unfold sizeLimit at hbig
    omega
  rw [Rlp.Encbuf.toBytes_eq hlay hsize, hcont hsize] at hout
  cases hout
  exact ⟨rfl, not_lt.mp hbig⟩

/-! ### Decoding the pairs -/

theorem run_stream {α : Type} (m : Rlp.StreamM α) (s : Rlp.Stream) :
    ExceptState.run (stream m) s =
      ((ExceptState.run m s).1.mapError .rlp, (ExceptState.run m s).2) := rfl

theorem run_stream_ok {α : Type} {m : Rlp.StreamM α} {s s' : Rlp.Stream} {a : α}
    (h : ExceptState.run m s = (.ok a, s')) : ExceptState.run (stream m) s = (.ok a, s') := by
  rw [run_stream, h]
  rfl

open Rlp Rlp.Stream in
/-- **The loop of `DecodeRLP` computes `scanPairs`**, on the encodings of keys and values
that fill the rest of the innermost list, followed by a last element: with more fuel than
pairs, it returns what `scanPairs` returns, and when that is the pairs, it has read them
all. The induction is on the pairs; each round reads a key with `Bytes` and a value with
`Raw`, and the end of the list is where `Kind` reports `EOL`. -/
theorem run_decodePairs : ∀ (ps : List (List UInt8 × Item)) (last : Option Item)
    (fuel i : Nat) (prevkey : List UInt8) (s : Stream) (rest : List UInt8) (tos : Listpos)
    (st : List Listpos),
    ps.length < fuel →
    (Item.encodeList (pairItems ps ++ last.toList)).length < 2 ^ 64 →
    s.kind = none → s.input = Item.encodeList (pairItems ps ++ last.toList) ++ rest →
    s.stack = tos :: st →
    tos.pos.toNat + (Item.encodeList (pairItems ps ++ last.toList)).length = tos.size.toNat →
    Fits s (Item.encodeList (pairItems ps ++ last.toList)).length →
    ∃ s', ExceptState.run (decodePairs fuel i prevkey) s = (scanPairs i prevkey ps last, s') ∧
      ∀ l, scanPairs i prevkey ps last = .ok l →
        Moved s s' (Item.encodeList (pairItems ps)) ∧ s'.kind = none
  | [], none, fuel, i, prevkey, s, rest, tos, st, hfuel, _, hk, _, hstack, hfull, hfit => by
    -- the list is full: `Bytes` reports `EOL`
    obtain ⟨f, rfl⟩ : ∃ f, fuel = f + 1 := ⟨fuel - 1, by simp at hfuel; omega⟩
    have heq : tos.pos = tos.size :=
      UInt64.toNat_inj.mp (by simpa [pairItems] using hfull)
    refine ⟨{ s with kinderr := none }, ?_, fun _ _ =>
      ⟨(moved_nil hfit.topOk).congr rfl rfl rfl rfl, hk⟩⟩
    rw [decodePairs, ExceptState.run_bind, run_stream, ExceptState.run_attempt, run_bytes_eol hk hstack heq]
    rfl
  | [], some (.bytes k), fuel, i, prevkey, s, rest, tos, st, hfuel, hlen, hk, hin, hstack,
      hfull, hfit => by
    -- a key with no value: `Raw` reports `EOL`
    obtain ⟨f, rfl⟩ : ∃ f, fuel = f + 1 := ⟨fuel - 1, by simp at hfuel; omega⟩
    simp only [pairItems, List.flatMap_nil, List.nil_append, Option.toList_some,
      encodeList_cons, encodeList_nil, List.append_nil] at hlen hin hfull hfit
    obtain ⟨s₁, hbytes, hm₁, hk₁⟩ := run_bytes_encode hlen hk hin hfit
    obtain ⟨tos₁, hstack₁, hsize₁, hpos₁⟩ := hm₁.stack_cons hstack (by omega)
    have heq₁ : tos₁.pos = tos₁.size := UInt64.toNat_inj.mp (by rw [hsize₁]; omega)
    refine ⟨{ s₁ with kinderr := none }, ?_, fun _ h => by cases h⟩
    rw [decodePairs, ExceptState.run_bind, run_stream, ExceptState.run_attempt, hbytes]
    simp only [Except.mapError]
    rw [ExceptState.run_bind, run_stream, ExceptState.run_attempt, run_raw_eol hk₁ hstack₁ heq₁]
    rfl
  | [], some (.list ts), fuel, i, prevkey, s, rest, tos, st, hfuel, hlen, hk, hin, hstack,
      hfull, hfit => by
    -- a list where a key should be: `Bytes` rejects it
    obtain ⟨f, rfl⟩ : ∃ f, fuel = f + 1 := ⟨fuel - 1, by simp at hfuel; omega⟩
    simp only [pairItems, List.flatMap_nil, List.nil_append, Option.toList_some,
      encodeList_cons, encodeList_nil, List.append_nil, encode_list] at hlen hin hfull hfit
    rw [List.length_append] at hlen hfit
    obtain ⟨s₁, hbytes⟩ := run_bytes_list_header (n := (Item.encodeList ts).length) hk
      (by omega) (by rw [hin, List.append_assoc]; rfl) hfit
    refine ⟨s₁, ?_, fun _ h => by cases h⟩
    rw [decodePairs, ExceptState.run_bind, run_stream, ExceptState.run_attempt, hbytes]
    rfl
  | (k, t) :: ps, last, fuel, i, prevkey, s, rest, tos, st, hfuel, hlen, hk, hin, hstack,
      hfull, hfit => by
    obtain ⟨f, rfl⟩ : ∃ f, fuel = f + 1 := ⟨fuel - 1, by simp at hfuel; omega⟩
    have hsplit : pairItems ((k, t) :: ps) ++ last.toList =
        .bytes k :: t :: (pairItems ps ++ last.toList) := rfl
    rw [hsplit] at hlen hin hfull hfit
    simp only [encodeList_cons, List.length_append] at hlen hin hfull hfit
    rw [List.append_assoc, List.append_assoc] at hin
    -- the key
    obtain ⟨s₁, hbytes, hm₁, hk₁⟩ := run_bytes_encode (by omega) hk hin (hfit.mono (by omega))
    obtain ⟨tos₁, hstack₁, hsize₁, hpos₁⟩ := hm₁.stack_cons hstack (by omega)
    have hin₁ : s₁.input = t.encode ++ (Item.encodeList (pairItems ps ++ last.toList) ++ rest) := by
      rw [hm₁.input] at hin
      exact List.append_cancel_left hin
    have hfit₁ := hm₁.fits_rest (k := t.encode.length +
      (Item.encodeList (pairItems ps ++ last.toList)).length) hfit
    -- its value
    obtain ⟨s₂, hraw, hm₂, hk₂⟩ := run_raw_encode t (by omega) hk₁ hin₁ (hfit₁.mono (by omega))
    obtain ⟨tos₂, hstack₂, hsize₂, hpos₂⟩ := hm₂.stack_cons hstack₁ (by rw [hsize₁]; omega)
    have hin₂ : s₂.input = Item.encodeList (pairItems ps ++ last.toList) ++ rest := by
      rw [hm₂.input] at hin₁
      exact List.append_cancel_left hin₁
    have hfit₂ := hm₂.fits_rest hfit₁
    -- the other pairs, from what is left of the list
    obtain ⟨s', hrun, hmoved⟩ := run_decodePairs ps last f (i + 1) k s₂ rest tos₂ st
      (by simp at hfuel; omega) (by omega) hk₂ hin₂ hstack₂ (by rw [hsize₂, hsize₁]; omega) hfit₂
    -- both reads succeed; then come the checks of the key
    have hreads : ExceptState.run (decodePairs (f + 1) i prevkey) s =
        ExceptState.run (if i > 0 ∧ k = prevkey then throw .duplicateKey
          else if i > 0 ∧ k < prevkey then throw .notSorted
          else do
            let rest ← decodePairs f (i + 1) k
            pure (⟨k, t.encode⟩ :: rest)) s₂ := by
      rw [decodePairs, ExceptState.run_bind, run_stream, ExceptState.run_attempt, hbytes]
      simp only [Except.mapError]
      rw [ExceptState.run_bind, run_stream, ExceptState.run_attempt, hraw]
      rfl
    by_cases hdup : i > 0 ∧ k = prevkey
    · refine ⟨s₂, ?_, fun l hl => by rw [scanPairs, if_pos hdup] at hl; cases hl⟩
      rw [hreads, if_pos hdup, scanPairs, if_pos hdup]
      rfl
    by_cases hlt : i > 0 ∧ k < prevkey
    · refine ⟨s₂, ?_, fun l hl => by rw [scanPairs, if_neg hdup, if_pos hlt] at hl; cases hl⟩
      rw [hreads, if_neg hdup, if_pos hlt, scanPairs, if_neg hdup, if_pos hlt]
      rfl
    have hscan : scanPairs i prevkey ((k, t) :: ps) last =
        (scanPairs (i + 1) k ps last).map (⟨k, t.encode⟩ :: ·) := by
      rw [scanPairs, if_neg hdup, if_neg hlt]
    refine ⟨s', ?_, fun l hl => ?_⟩
    · rw [hreads, if_neg hdup, if_neg hlt, ExceptState.run_bind, hrun, hscan]
      cases scanPairs (i + 1) k ps last <;> rfl
    · -- the key, its value and the other pairs were read
      obtain ⟨l', hl', -⟩ : ∃ l', scanPairs (i + 1) k ps last = .ok l' ∧ l = ⟨k, t.encode⟩ :: l' := by
        rw [hscan] at hl
        cases hs : scanPairs (i + 1) k ps last <;> simp [hs, Except.map] at hl ⊢
        exact hl.symm
      obtain ⟨hm', hk'⟩ := hmoved l' hl'
      refine ⟨?_, hk'⟩
      have hpieces : Item.encodeList (pairItems ((k, t) :: ps)) =
          (Item.bytes k).encode ++ t.encode ++ Item.encodeList (pairItems ps) := by
        simp [pairItems, List.append_assoc]
      rw [hpieces]
      exact (hm₁.trans hm₂).trans hm'

/-! ### Decoding a record -/

open Rlp Rlp.Stream in
/-- **`decodeContainer` on the items of a record** returns its signature, its sequence
number and the pairs `scanPairs` finds after them, or the first error `scanPairs` finds. -/
theorem run_decodeContainer (sig : List UInt8) (seq : UInt64) (ps : List (List UInt8 × Item))
    (last : Option Item) {raw : List UInt8}
    (hraw : raw = (recordItem sig seq (pairItems ps ++ last.toList)).encode)
    (hlen : raw.length < 2 ^ 64) :
    (ExceptState.run (decodeContainer raw) (newStream raw true (UInt64.ofNat raw.length))).1 =
      (scanPairs 0 [] ps last).map fun pairs => ⟨seq, some sig, raw, pairs⟩ := by
  set E := Item.encodeList (pairItems ps ++ last.toList) with hE
  -- the payload of the list: the signature, the sequence number, the elements
  set P := (Item.bytes sig).encode ++ (encodeNat seq.toNat ++ E) with hP
  have henc : raw = tagBytes .list P.length 0 ++ P := by
    rw [hraw, recordItem, encode_list]
    simp [hP, hE, encodeNat, tagBytes]
  have hPlen : P.length < 2 ^ 64 := by
    rw [henc, List.length_append] at hlen
    omega
  have hfit : Fits (newStream raw true (UInt64.ofNat raw.length))
      ((tagBytes .list P.length 0).length + P.length) := by
    rw [← List.length_append, ← henc]
    exact fits_newStream hlen le_rfl
  -- the header of the list
  obtain ⟨s₁, hK, hm, hk₁, -, hsize₁, -⟩ := run_Kind_value (k := .list)
    (by rw [newStream_bytes]) (by simp) hPlen (by rw [newStream_bytes]; exact henc) hfit
  have hin₁ : s₁.input = P := by
    have hin := hm.input
    rw [newStream_bytes] at hin
    exact (List.append_cancel_left (henc.symm.trans hin)).symm
  have hsizeNat : s₁.size.toNat = P.length := by
    rw [hsize₁]
    exact UInt64.toNat_ofNat_of_lt' hPlen
  have hfit₁ : Fits (enter s₁) P.length :=
    ⟨fun tos htos => by simp [enter] at htos; subst htos; simp [hsizeNat],
      (hm.fits_rest hfit).2⟩
  -- the signature
  obtain ⟨s₂, hsig, hm₂, hk₂⟩ := @run_bytes_encode (enter s₁) sig (encodeNat seq.toNat ++ E)
    (by rw [hP, List.length_append] at hPlen; omega) rfl (by rw [enter, hin₁])
    (hfit₁.mono (by simp [hP]))
  obtain ⟨tos₂, hstack₂, hsize₂, hpos₂⟩ := hm₂.stack_cons
    (show (enter s₁).stack = ⟨0, s₁.size⟩ :: s₁.stack from rfl)
    (by simp [hsizeNat, hP])
  have hin₂ : s₂.input = encodeNat seq.toNat ++ E := by
    have hin := hm₂.input
    rw [enter, hin₁] at hin
    exact (List.append_cancel_left hin).symm
  have hfit₂ : Fits s₂ (encodeNat seq.toNat ++ E).length := hm₂.fits_rest (by simpa [hP] using hfit₁)
  -- the sequence number
  obtain ⟨s₃, hseq, hm₃, hk₃⟩ := @run_uint 64 _ _ _ (by decide) le_rfl
    (by decide) seq.toNat_lt hk₂ hin₂ (hfit₂.mono (by simp))
  obtain ⟨tos₃, hstack₃, hsize₃, hpos₃⟩ := hm₃.stack_cons hstack₂
    (by rw [hpos₂, hsize₂]; simp [hsizeNat, hP])
  have hin₃ : s₃.input = E ++ [] := by
    have hin := hm₃.input
    rw [hin₂] at hin
    rw [List.append_nil]
    exact (List.append_cancel_left hin).symm
  -- the pairs, as many as the payload's bytes at most
  have hfuel : ps.length < raw.length := by
    have h1 := length_le_encodeList (pairItems ps ++ last.toList)
    rw [List.length_append, length_pairItems, ← hE] at h1
    have h3 := one_le_headerLen P.length
    have h4 : raw.length = headerLen P.length + P.length := by
      rw [henc, List.length_append]
      simp [tagBytes]
    have h5 : P.length = (Item.bytes sig).encode.length +
        ((encodeNat seq.toNat).length + E.length) := by
      simp [hP]
    omega
  obtain ⟨s₄, hpairs, hmoved⟩ := run_decodePairs ps last raw.length 0 [] s₃ [] tos₃ _
    hfuel (by rw [← hE]; simp only [hP, List.length_append] at hPlen; omega) hk₃ hin₃ hstack₃
    (by rw [← hE, hpos₃, hsize₃, hpos₂, hsize₂]; simp [hsizeNat, hP]; omega)
    (by rw [← hE]; exact hm₃.fits_rest (by simpa using hfit₂))
  have hfront : ExceptState.run (decodeContainer raw) (newStream raw true (UInt64.ofNat raw.length)) =
      ExceptState.run (do
        let pairs ← decodePairs raw.length 0 []
        stream Rlp.Stream.listEnd
        pure (⟨UInt64.ofNat seq.toNat, some sig, raw, pairs⟩ : Record)) s₃ := by
    rw [decodeContainer, ExceptState.run_bind_ok (run_stream_ok (run_list_of_Kind hK hsize₁)),
      ExceptState.run_bind_ok (run_stream_ok hsig), ExceptState.run_bind_ok (run_stream_ok hseq)]
  rw [hfront, UInt64.ofNat_toNat, ExceptState.run_bind, hpairs]
  rcases hscan : scanPairs 0 [] ps last with err | l
  · rfl
  -- the pairs were read to the end of the list, which `ListEnd` leaves
  obtain ⟨rfl, -, -⟩ := scanPairs_eq_ok.mp hscan
  obtain ⟨hm₄, -⟩ := hmoved l hscan
  have hall : Moved (enter s₁) s₄ P := by
    have := (hm₂.trans hm₃).trans hm₄
    simpa [hP, hE, List.append_assoc] using this
  obtain ⟨hend, -⟩ := Moved.close
    (fun tos htos => by rw [hsizeNat]; exact (hm.fits_rest hfit).1 tos htos) hsizeNat.symm hall
  simp only [ExceptState.run_bind, ExceptState.run_pure]
  rw [run_stream_ok hend]
  rfl

section Schemes

variable (schemes : List UInt8 → Option IdentityScheme)

/-- The checks `DecodeRLP` makes of the record it has read: the record names a known
identity scheme, which verifies its signature. -/
def verifyDecoded (dec : Record) : Except Error Record :=
  match (idScheme schemes dec).2 with
  | none => .error .noID
  | some scheme =>
    match scheme.verify dec dec.signature with
    | .error err => .error err
    | .ok () => .ok dec

open Rlp Rlp.Stream in
/-- **`DecodeRLP` on the encoding of a record's items**: too big beyond `SizeLimit`, else
the first error `scanPairs` finds in the pairs, else the checks of the identity scheme. -/
theorem decodeBytes_items (sig : List UInt8) (seq : UInt64) (ps : List (List UInt8 × Item))
    (last : Option Item) {b : List UInt8}
    (hb : b = (recordItem sig seq (pairItems ps ++ last.toList)).encode)
    (hlen : b.length < 2 ^ 64) :
    decodeBytes schemes b =
      if b.length > sizeLimit then .error .tooBig
      else (scanPairs 0 [] ps last).bind fun pairs =>
        verifyDecoded schemes ⟨seq, some sig, b, pairs⟩ := by
  -- `Raw` reads the whole input
  obtain ⟨s', hraw, hm, -⟩ := @run_raw_encode (newStream b true (UInt64.ofNat b.length))
    (recordItem sig seq (pairItems ps ++ last.toList)) [] (hb ▸ hlen) (by rw [newStream_bytes])
    (by rw [newStream_bytes, List.append_nil, hb]) (hb ▸ fits_newStream hlen le_rfl)
  rw [← hb] at hraw hm
  have hnil : s'.input = [] := by
    have hin := hm.input
    rw [newStream_bytes] at hin
    exact List.append_cancel_left (hin.symm.trans (List.append_nil b).symm)
  have hcont := run_decodeContainer sig seq ps last hb hlen
  unfold decodeBytes
  rw [decodeRLP, ExceptState.run_bind_ok (run_stream_ok hraw)]
  by_cases hbig : b.length > sizeLimit
  · simp [hbig]
  simp only [hbig, if_false, hcont]
  -- the checks of the pairs, then those of the identity scheme, in the order of the source
  rcases scanPairs 0 [] ps last with err | l
  · rfl
  simp only [Except.map, Except.bind, verifyDecoded]
  rcases hid : (idScheme schemes ⟨seq, some sig, b, l⟩).2 with _ | scheme
  · rfl
  rcases hv : scheme.verify ⟨seq, some sig, b, l⟩ (some sig) with err | _
  · simp only [hv]
    rfl
  · simp [hv, hnil]

/-- Pairs whose values are encodings of items are the pairs of those items. -/
theorem exists_pairsOf : ∀ pairs : List Pair, (∀ p ∈ pairs, ∃ t : Rlp.Item, p.v = t.encode) →
    ∃ ts, pairs = pairsOf ts
  | [], _ => ⟨[], rfl⟩
  | ⟨k, v⟩ :: pairs, h => by
    obtain ⟨t, ht⟩ := h ⟨k, v⟩ List.mem_cons_self
    obtain ⟨ts, hts⟩ := exists_pairsOf pairs fun p hp => h p (List.mem_cons_of_mem _ hp)
    exact ⟨(k, t) :: ts, by simp only at ht; simp [pairsOf, ht, hts]⟩

/-- **A record signed by `SetSig` is read back whole** from the bytes `EncodeRLP` gives,
when its values are encodings of items and its identity scheme verifies its signature. -/
theorem decodeBytes_setSig {idscheme sig : List UInt8} {r₁ r : Record}
    {ts : List (List UInt8 × Rlp.Item)} (hpairs : r₁.pairs = pairsOf ts)
    (hsorted : Sorted r₁.pairs)
    (h : run (setSig schemes idscheme (some sig)) r₁ = .ok (.ok (), r))
    (hverify : ∀ s, (idScheme schemes r).2 = some s → s.verify r r.signature = .ok ()) :
    r.raw.length ≤ sizeLimit ∧ encodeRLP r = .ok r.raw ∧ decodeBytes schemes r.raw = .ok r := by
  obtain ⟨raw, henc, ⟨scheme, hscheme⟩, rfl⟩ := run_setSig_ok schemes h
  obtain ⟨hraw, hsize⟩ := encode_ok_items hpairs henc
  refine ⟨hsize, rfl, ?_⟩
  have hraw' : raw = (recordItem sig r₁.seq (pairItems ts ++ (none : Option Rlp.Item).toList)).encode := by
    rw [hraw]
    simp
  -- the pairs pass the checks of the loop, and the record read is the one signed
  have hscan : scanPairs 0 [] ts none = .ok r₁.pairs :=
    scanPairs_eq_ok.mpr ⟨rfl, hpairs ▸ hsorted, hpairs⟩
  have hdec : (⟨r₁.seq, some sig, raw, r₁.pairs⟩ : Record) =
      { r₁ with signature := some sig, raw := raw } := rfl
  rw [decodeBytes_items schemes sig r₁.seq ts none hraw' (by unfold sizeLimit at hsize; omega),
    if_neg (not_lt.mpr hsize), hscan, Except.bind, hdec, verifyDecoded]
  have hid : (idScheme schemes { r₁ with signature := some sig, raw := raw }).2 = some scheme :=
    hscheme
  rw [hid]
  simp only
  rw [hverify scheme hid]

/-- **`DecodeRLP` rejects pairs out of order, a repeated key, and a key with no value**
(or any element left over after the pairs). -/
theorem decodeBytes_bad_pairs (sig : List UInt8) (seq : UInt64)
    (ps : List (List UInt8 × Rlp.Item)) (last : Option Rlp.Item)
    (hlen : (recordItem sig seq (pairItems ps ++ last.toList)).encode.length < 2 ^ 64)
    (hbad : ¬ Sorted (pairsOf ps) ∨ last.isSome) :
    ∃ err, decodeBytes schemes (recordItem sig seq (pairItems ps ++ last.toList)).encode =
      .error err := by
  rw [decodeBytes_items schemes sig seq ps last rfl hlen]
  split_ifs
  · exact ⟨_, rfl⟩
  rcases hscan : scanPairs 0 [] ps last with err | l
  · exact ⟨err, rfl⟩
  -- a run of the checks that succeeds saw sorted pairs and nothing after them
  obtain ⟨rfl, hsorted, -⟩ := scanPairs_eq_ok.mp hscan
  simp [hsorted] at hbad

/-- **The pairs of a node record, and its encoding.** A run of `Set` calls from a record
with increasing pairs keeps them increasing; `Load` returns what the most recent `Set` of
a key stored, and `NotFound` for a key no `Set` stored that the record did not hold. A
record signed by `SetSig`, whose values are encodings of items, is at most `SizeLimit`
bytes, and decoding the bytes `EncodeRLP` gives returns the record, with its sequence
number, signature and pairs, when its scheme verifies its signature. `DecodeRLP` rejects
every record encoding whose pairs are out of order, repeat a key, or end with a key
alone. -/
theorem record_pairs_and_codec (es : List Entry) (r₀ : Record) (hr₀ : Sorted r₀.pairs)
    (henc : ∀ e ∈ es, ∃ blob, encodeEntry e = .ok blob) :
    (∃ r, run (es.forM set) r₀ = .ok (.ok (), r) ∧ Sorted r.pairs ∧
      ∀ {α : Type} (k : List UInt8) (dec : List UInt8 → Except Rlp.Error α),
        (∀ e, lastSet es k = some e → ∃ blob, encodeEntry e = .ok blob ∧
          r.load k dec = (dec blob).mapError fun err => ⟨k, .rlp err⟩) ∧
        (lastSet es k = none → lookup r₀.pairs k = none →
          r.load k dec = .error ⟨k, .notFound⟩)) ∧
    (∀ (idscheme sig : List UInt8) (r₁ r : Record),
      (∀ p ∈ r₁.pairs, ∃ t : Rlp.Item, p.v = t.encode) → Sorted r₁.pairs →
      run (setSig schemes idscheme (some sig)) r₁ = .ok (.ok (), r) →
      (∀ s, (idScheme schemes r).2 = some s → s.verify r r.signature = .ok ()) →
      r.raw.length ≤ sizeLimit ∧ encodeRLP r = .ok r.raw ∧ decodeBytes schemes r.raw = .ok r ∧
        r.seq = r₁.seq ∧ r.signature = some sig ∧ r.pairs = r₁.pairs) ∧
    (∀ (sig : List UInt8) (seq : UInt64) (ps : List (List UInt8 × Rlp.Item))
      (last : Option Rlp.Item),
      (recordItem sig seq (pairItems ps ++ last.toList)).encode.length < 2 ^ 64 →
      (¬ Sorted (pairsOf ps) ∨ last.isSome) →
      ∃ err, decodeBytes schemes (recordItem sig seq (pairItems ps ++ last.toList)).encode =
        .error err) := by
  refine ⟨?_, ?_, decodeBytes_bad_pairs schemes⟩
  · -- the run of `Set`, read through `Load`
    obtain ⟨r, hrun, hsorted, hlook⟩ := run_forM_set es r₀ hr₀ henc
    refine ⟨r, hrun, hsorted, fun k dec => ⟨fun e he => ?_, fun hnone hold => ?_⟩⟩
    · obtain ⟨blob, hblob⟩ := henc e (by
        have := List.mem_of_find?_eq_some he
        exact List.mem_reverse.mp this)
      refine ⟨blob, hblob, ?_⟩
      rw [load_eq hsorted, hlook k, he]
      simp only [hblob]
      rfl
    · rw [load_eq hsorted, hlook k, hnone, hold]
  · -- a signed record, encoded and decoded
    intro idscheme sig r₁ r hvalues hsorted h hverify
    obtain ⟨ts, hts⟩ := exists_pairsOf r₁.pairs hvalues
    obtain ⟨hsize, hencode, hdecode⟩ := decodeBytes_setSig schemes hts hsorted h hverify
    obtain ⟨raw, -, -, rfl⟩ := run_setSig_ok schemes h
    exact ⟨hsize, hencode, hdecode, rfl, rfl, rfl⟩

/-- Two `Set` calls of the key `"id"` on the empty record, with no scheme registered. -/
theorem record_pairs_and_codec_set_twice :
    Sorted Record.empty.pairs ∧
      (∀ e ∈ ([⟨idKey, .string [0x76, 0x34]⟩, ⟨idKey, .string [0x76, 0x35]⟩] : List Entry),
        ∃ blob, encodeEntry e = .ok blob) ∧
      ∃ r, run (([⟨idKey, .string [0x76, 0x34]⟩, ⟨idKey, .string [0x76, 0x35]⟩] : List Entry).forM
        set) Record.empty = .ok (.ok (), r) ∧ Sorted r.pairs := by
  have henc : ∀ e ∈ ([⟨idKey, .string [0x76, 0x34]⟩, ⟨idKey, .string [0x76, 0x35]⟩] : List Entry),
      ∃ blob, encodeEntry e = .ok blob := by
    intro e he
    simp only [List.mem_cons, List.not_mem_nil, or_false] at he
    rcases he with rfl | rfl
    · exact ⟨_, rfl⟩
    · exact ⟨_, rfl⟩
  obtain ⟨⟨r, hrun, hsorted, -⟩, -, -⟩ :=
    record_pairs_and_codec (fun _ => none) _ Record.empty .nil henc
  exact ⟨.nil, henc, r, hrun, hsorted⟩

end Schemes

end Record

end Enr
