import Dsplinz.Core.TxList
import Dsplinz.Lib.KeySorted

/-!
# What `txSortedMap` holds

A `txSortedMap` stands for one thing, its transactions sorted by nonce
(`Core.TxMap.sorted`), and every method is a simple function of that list: `Forward` cuts
a prefix, `Cap` a suffix, `Ready` the run of consecutive nonces at the front, `Flatten`
returns it. The three representations agree on it as long as `Core.TxSortedMap.Inv`
holds: every transaction is stored under its own nonce, the heap holds each nonce of the
map once and is a heap, and a cache is that list.

The proofs go through the heap: popping it yields the head of the sorted list
(`Core.TxSortedMap.Indexed.pop`), so the loops of `Forward` and `Ready` walk down the
sorted list one transaction at a time, and `Cap` reads the sorted nonces from the back.

| method | what it does to the sorted list | theorem |
|---|---|---|
| `Put` | inserts, replacing the same nonce | `Core.TxSortedMap.put_spec` |
| `Forward` | returns `takeWhile (nonce < t)`, keeps `dropWhile` | `Core.TxSortedMap.forward_spec` |
| `Filter` | returns those `filter` holds of, keeps the others | `Core.TxSortedMap.filter_spec` |
| `Cap` | returns `drop k` from the back, keeps `take k` | `Core.TxSortedMap.cap_spec` |
| `Remove` | drops the nonce | `Core.TxSortedMap.remove_spec` |
| `Ready` | returns `runFrom`, keeps the rest | `Core.TxSortedMap.ready_spec` |
| `Flatten` | returns it | `Core.TxSortedMap.flatten_spec` |

Each of these keeps the invariant, so every map a run of calls reaches has it
(`Core.TxSortedMap.reachable_inv`); the contracts in terms of the transactions of the map
alone, with no sorted list in them, follow (`Core.TxSortedMap.tx_sorted_map_contracts`).
`Cap` with a negative threshold is the one call that panics, on every map.
-/

namespace Core

open KeySorted

/-! ### Transactions sorted by nonce -/

/-- The key the lists are sorted by: the nonce, as a number. -/
def nonceKey (tx : Transaction) : Nat := tx.nonce.toNat

theorem sortByNonce_eq (txs : List Transaction) :
    sortByNonce txs = txs.mergeSort fun a b => decide (nonceKey a ≤ nonceKey b) := by
  unfold sortByNonce nonceKey
  congr

theorem sortByNonce_perm (txs : List Transaction) : (sortByNonce txs).Perm txs :=
  List.mergeSort_perm _ _

theorem nonceKey_lt {a b : Transaction} : nonceKey a < nonceKey b ↔ a.nonce < b.nonce :=
  UInt64.lt_iff_toNat_lt.symm

/-! ### The Go map -/

/-- A list of entries with distinct keys loses its entry of key `a` to `kerase` and to a
filter alike. -/
theorem kerase_eq_filter {l : List (Σ _ : UInt64, Transaction)} (nd : l.NodupKeys) (a : UInt64) :
    l.kerase a = l.filter fun e => e.1 ≠ a := by
  induction l with
  | nil => rfl
  | cons s l ih =>
    rw [List.nodupKeys_cons] at nd
    by_cases hs : a = s.1
    · -- the one entry of key `a`: nothing after it has that key
      rw [List.kerase_cons_eq hs,
        List.filter_cons_of_neg (by rw [decide_eq_true_eq, not_not]; exact hs.symm), eq_comm,
        List.filter_eq_self]
      intro e he
      have : e.1 ≠ s.1 := fun h => nd.1 (h ▸ List.mem_keys_of_mem he)
      simpa [hs] using this
    · rw [List.kerase_cons_ne hs, List.filter_cons_of_pos (by rw [decide_eq_true_eq]; exact Ne.symm hs),
        ih nd.2]

namespace TxMap

variable {items : TxMap}

/-- Every transaction of the map is stored under its own nonce. -/
def Keyed (items : TxMap) : Prop := ∀ e ∈ items.entries, e.2.nonce = e.1

theorem Keyed.of_subset {items' : TxMap} (h : Keyed items)
    (hs : items'.entries ⊆ items.entries) : Keyed items' :=
  fun e he => h e (hs he)

theorem keyed_empty : Keyed ∅ := by
  intro e he
  simp [AList.empty_entries] at he

theorem Keyed.erase (h : Keyed items) (a : UInt64) : Keyed (items.erase a) :=
  fun e he => h e ((List.kerase_sublist a _).subset he)

theorem Keyed.insert (h : Keyed items) (tx : Transaction) : Keyed (items.insert tx.nonce tx) := by
  intro e he
  rw [AList.entries_insert, List.mem_cons] at he
  rcases he with rfl | he
  · rfl
  · exact h e ((List.kerase_sublist _ _).subset he)

/-- The nonces of the transactions are the keys. -/
theorem Keyed.nonces (h : Keyed items) : items.values.map Transaction.nonce = items.keys := by
  unfold values AList.keys List.keys
  rw [List.map_map]
  exact List.map_congr_left fun e he => h e he

/-- The transactions of a map have distinct nonces. -/
theorem Keyed.nodup (h : Keyed items) : (items.values.map nonceKey).Nodup := by
  have hnd : (items.values.map Transaction.nonce).Nodup := h.nonces ▸ items.keys_nodup
  have hmap : items.values.map nonceKey = (items.values.map Transaction.nonce).map UInt64.toNat := by
    rw [List.map_map]
    rfl
  rw [hmap]
  exact hnd.map fun a b hab => UInt64.toNat_inj.mp hab

theorem values_erase (h : Keyed items) (a : UInt64) :
    values (items.erase a) = items.values.filter fun tx => tx.nonce ≠ a := by
  show (items.entries.kerase a).map Sigma.snd = _
  rw [kerase_eq_filter items.nodupKeys]
  unfold values
  rw [List.filter_map]
  congr 1
  exact List.filter_congr fun e he => by simp [Function.comp, h e he]

theorem values_insert (h : Keyed items) (tx : Transaction) :
    values (items.insert tx.nonce tx) = tx :: items.values.filter fun t => t.nonce ≠ tx.nonce := by
  rw [← values_erase h]
  rfl

theorem mem_values_of_lookup {a : UInt64} {tx : Transaction} (hl : items.lookup a = some tx) :
    tx ∈ items.values :=
  List.mem_map_of_mem (AList.mem_lookup_iff.mp hl)

theorem Keyed.nonce_of_lookup (h : Keyed items) {a : UInt64} {tx : Transaction}
    (hl : items.lookup a = some tx) : tx.nonce = a :=
  h _ (AList.mem_lookup_iff.mp hl)

theorem Keyed.lookup_of_mem (h : Keyed items) {tx : Transaction} (hx : tx ∈ items.values) :
    items.lookup tx.nonce = some tx := by
  obtain ⟨e, he, rfl⟩ := List.mem_map.mp hx
  rw [h e he]
  exact AList.mem_lookup_iff.mpr he

/-- The transactions of a map, one of them first. -/
theorem perm_erase_of_lookup {a : UInt64} {tx : Transaction} (hl : items.lookup a = some tx) :
    items.values.Perm (tx :: values (items.erase a)) := by
  have ha : a ∈ items.entries.keys := AList.mem_keys.mp (AList.lookup_isSome.mp (by simp [hl]))
  obtain ⟨b, l₁, l₂, -, heq, hker⟩ := List.exists_of_kerase ha
  -- the entry of key `a` holds `tx`
  have hb : b = tx := by
    have hmem : (⟨a, b⟩ : Σ _ : UInt64, Transaction) ∈ items.entries := by
      rw [heq]
      exact List.mem_append_right l₁ List.mem_cons_self
    rw [← AList.mem_lookup_iff, hl, Option.mem_def, Option.some.injEq] at hmem
    exact hmem.symm
  subst hb
  show (items.entries.map Sigma.snd).Perm (b :: (items.entries.kerase a).map Sigma.snd)
  rw [hker, heq, List.map_append, List.map_cons, List.map_append]
  exact List.perm_middle

/-- What a map holds, sorted by nonce: what `Flatten` returns. -/
def sorted (items : TxMap) : List Transaction := sortByNonce items.values

theorem Keyed.increasing (h : Keyed items) : Increasing nonceKey items.sorted := by
  unfold sorted
  rw [sortByNonce_eq]
  exact increasing_mergeSort h.nodup

theorem sorted_perm (items : TxMap) : items.sorted.Perm items.values := sortByNonce_perm _

/-- **The sorted transactions of a map are the one increasing list of them.** -/
theorem Keyed.sorted_eq (h : Keyed items) {l : List Transaction} (hl : Increasing nonceKey l)
    (hp : l.Perm items.values) : items.sorted = l :=
  h.increasing.eq_of_perm hl ((sorted_perm items).trans hp.symm)

end TxMap

/-- A prefix cut by `takeWhile` is dropped by `drop` of its length. -/
theorem drop_length_takeWhile (l : List Transaction) (p : Transaction → Bool) :
    l.drop (l.takeWhile p).length = l.dropWhile p := by
  calc l.drop (l.takeWhile p).length
      = (l.takeWhile p ++ l.dropWhile p).drop (l.takeWhile p).length := by
        rw [List.takeWhile_append_dropWhile]
    _ = l.dropWhile p := List.drop_left

namespace TxSortedMap

variable {m : TxSortedMap}

/-! ### The invariant -/

/-- What the loops of the map keep: every transaction stored under its nonce, and a heap of
the nonces of the map, each once. -/
structure Indexed (items : TxMap) (index : List UInt64) : Prop where
  keyed : items.Keyed
  perm : index.Perm items.keys
  heap : GoHeap.IsHeap index

/-- **The invariant of `txSortedMap`**: the map and the heap are `Indexed`, and a cache is
the transactions sorted by nonce. -/
structure Inv (m : TxSortedMap) : Prop where
  indexed : Indexed m.items m.index
  cache : ∀ c, m.cache = some c → c = m.items.sorted

theorem inv_new : Inv newTxSortedMap :=
  ⟨⟨TxMap.keyed_empty, by simp [newTxSortedMap, AList.keys_empty], by decide⟩, nofun⟩

/-- The nonces of the heap are those of the transactions. -/
theorem Indexed.mem_index {items : TxMap} {index : List UInt64} (hi : Indexed items index)
    {tx : Transaction} (hx : tx ∈ items.values) : tx.nonce ∈ index := by
  have hk : tx.nonce ∈ items.keys := hi.keyed.nonces ▸ List.mem_map_of_mem hx
  exact hi.perm.symm.subset hk

theorem Indexed.values_eq_nil {items : TxMap} (hi : Indexed items []) : items.values = [] := by
  have hk : items.keys = [] := List.Perm.eq_nil hi.perm.symm
  rw [← List.map_eq_nil_iff (f := Transaction.nonce), hi.keyed.nonces, hk]

/-- Taking a nonce of the map out of the heap leaves the heap of the map without it. -/
theorem Indexed.perm_erase {items : TxMap} {index index' : List UInt64} {n : UInt64}
    (hi : Indexed items index) (hmem : n ∈ items.keys) (hperm : (n :: index').Perm index) :
    index'.Perm (items.erase n).keys := by
  rw [AList.keys_erase]
  exact (List.perm_cons n).mp ((hperm.trans hi.perm).trans (List.perm_cons_erase hmem))

/-- **Popping the heap takes the head of the sorted list**: the least nonce, whose
transaction comes first. -/
theorem Indexed.pop {items : TxMap} {index : List UInt64} {least : UInt64}
    (hi : Indexed items index) (hl : index[0]? = some least) :
    ∃ tx index', GoHeap.pop index = some (least, index') ∧ items.lookup least = some tx ∧
      Indexed (items.erase least) index' ∧ items.sorted = tx :: TxMap.sorted (items.erase least) := by
  have hne : index ≠ [] := by
    rintro rfl
    simp at hl
  obtain ⟨x, index', hpop, hx, hheap, hperm⟩ := GoHeap.pop_spec hi.heap hne
  rw [hl, Option.some.injEq] at hx
  subst hx
  -- the least nonce is a key, of some transaction
  have hmem : least ∈ items.keys := hi.perm.subset (hperm.subset List.mem_cons_self)
  obtain ⟨tx, htx⟩ : ∃ tx, items.lookup least = some tx :=
    Option.isSome_iff_exists.mp (AList.lookup_isSome.mpr (AList.mem_keys.mpr hmem))
  have hkeyed' := hi.keyed.erase least
  refine ⟨tx, index', hpop, htx, ⟨hkeyed', hi.perm_erase hmem hperm, hheap⟩, ?_⟩
  -- `tx` followed by the others in order is increasing, and holds the same transactions
  apply hi.keyed.sorted_eq
  · rw [increasing_cons]
    refine ⟨fun y hy => ?_, hkeyed'.increasing⟩
    have hy' := (TxMap.sorted_perm _).subset hy
    rw [TxMap.values_erase hi.keyed, List.mem_filter, decide_eq_true_eq] at hy'
    have hnlt := GoHeap.not_lt_root hi.heap hl _ (hi.mem_index hy'.1)
    rw [nonceKey_lt, hi.keyed.nonce_of_lookup htx]
    rw [UInt64.lt_iff_toNat_lt] at hnlt ⊢
    have hne' : y.nonce.toNat ≠ least.toNat := fun h => hy'.2 (UInt64.toNat_inj.mp h)
    omega
  · exact (List.Perm.cons tx (TxMap.sorted_perm _)).trans (TxMap.perm_erase_of_lookup htx).symm

/-! ### `Forward` -/

/-- **The loop of `Forward`** returns the transactions of a nonce below `threshold` in order,
and leaves the others. -/
theorem forwardLoop_spec (t : UInt64) (items : TxMap) (index : List UInt64)
    (removed : List Transaction) (hi : Indexed items index) :
    Indexed (forwardLoop t items index removed).1 (forwardLoop t items index removed).2.1 ∧
      (forwardLoop t items index removed).2.2 =
        removed ++ items.sorted.takeWhile (fun tx => decide (tx.nonce < t)) ∧
      TxMap.sorted (forwardLoop t items index removed).1 =
        items.sorted.dropWhile (fun tx => decide (tx.nonce < t)) := by
  fun_induction forwardLoop t items index removed with
  | case1 items index removed hl =>
    -- an empty heap: no transactions
    have hnil : index = [] := by simpa using hl
    subst hnil
    have hv := hi.values_eq_nil
    simp [TxMap.sorted, hv, sortByNonce, hi]
  | case2 items index removed least hl hlt nonce index' hp ih =>
    obtain ⟨tx, index'', hpop, htx, hi', hsorted⟩ := hi.pop hl
    rw [hp, Option.some.injEq, Prod.mk.injEq] at hpop
    obtain ⟨rfl, rfl⟩ := hpop
    have hn := hi.keyed.nonce_of_lookup htx
    obtain ⟨h1, h2, h3⟩ := ih hi'
    refine ⟨h1, ?_, ?_⟩
    · rw [h2, htx, hsorted, List.takeWhile_cons_of_pos (by simpa [hn] using hlt)]
      simp
    · rw [h3, hsorted, List.dropWhile_cons_of_pos (by simpa [hn] using hlt)]
  | case3 items index removed least hl hlt hp =>
    obtain ⟨tx, index'', hpop, -⟩ := hi.pop hl
    rw [hp] at hpop
    cases hpop
  | case4 items index removed least hl hlt =>
    -- the least nonce is not below `threshold`: nothing goes
    obtain ⟨tx, index'', -, htx, -, hsorted⟩ := hi.pop hl
    have hn := hi.keyed.nonce_of_lookup htx
    refine ⟨hi, ?_, ?_⟩
    · rw [hsorted, List.takeWhile_cons_of_neg (by simpa [hn] using hlt), List.append_nil]
    · rw [hsorted, List.dropWhile_cons_of_neg (by simpa [hn] using hlt)]

/-- **`Forward`** returns the transactions of a nonce below `threshold`, in order, and keeps
the others, its cache trimmed to them. -/
theorem forward_spec (hm : Inv m) (t : UInt64) :
    (m.forward t).1 = m.items.sorted.takeWhile (fun tx => decide (tx.nonce < t)) ∧
      TxMap.sorted (m.forward t).2.items =
        m.items.sorted.dropWhile (fun tx => decide (tx.nonce < t)) ∧
      Inv (m.forward t).2 := by
  obtain ⟨h1, h2, h3⟩ := forwardLoop_spec t m.items m.index [] hm.indexed
  unfold forward
  generalize forwardLoop t m.items m.index [] = r at h1 h2 h3
  obtain ⟨items, index, removed⟩ := r
  rw [List.nil_append] at h2
  subst h2
  refine ⟨rfl, h3, h1, fun c hc => ?_⟩
  -- the cache loses the prefix that went
  obtain ⟨c₀, hc₀, rfl⟩ := Option.map_eq_some_iff.mp hc
  rw [hm.cache c₀ hc₀, drop_length_takeWhile, h3]

/-! ### `Filter` -/

/-- **The loop of `Filter`**, with `es` left of a map whose entries are `kept ++ es`: it
removes the entries of the transactions `filter` holds of, and returns those. -/
theorem filterLoop_spec (f : Transaction → Bool) :
    ∀ (es kept : List (Σ _ : UInt64, Transaction)) (items : TxMap) (removed : List Transaction),
      items.entries = kept ++ es →
      (filterLoop f es items removed).1.entries = kept ++ es.filter (fun e => !f e.2) ∧
        (filterLoop f es items removed).2 = removed ++ (es.map Sigma.snd).filter f
  | [], kept, items, removed, h => by simp [filterLoop, h]
  | ⟨nonce, tx⟩ :: rest, kept, items, removed, h => by
    -- the nonce of the entry is not among the kept ones
    have hk : nonce ∉ kept.keys := by
      have hnd := items.nodupKeys
      rw [h, List.NodupKeys, List.keys_append, List.nodup_append] at hnd
      exact fun hmem => hnd.2.2 nonce hmem nonce (by simp) rfl
    by_cases hf : f tx = true
    · have he : (items.erase nonce).entries = kept ++ rest := by
        show items.entries.kerase nonce = _
        rw [h, List.kerase_append_right hk, List.kerase_cons_eq (a := nonce) rfl]
      obtain ⟨h1, h2⟩ := filterLoop_spec f rest kept (items.erase nonce) (removed ++ [tx]) he
      rw [filterLoop, if_pos hf]
      refine ⟨by rw [h1, List.filter_cons_of_neg (by simp [hf])], ?_⟩
      rw [h2, List.map_cons, List.filter_cons_of_pos hf, List.append_assoc, List.singleton_append]
    · obtain ⟨h1, h2⟩ := filterLoop_spec f rest (kept ++ [⟨nonce, tx⟩]) items removed
        (by rw [h, List.append_assoc, List.singleton_append])
      rw [filterLoop, if_neg hf]
      refine ⟨?_, ?_⟩
      · rw [h1, List.filter_cons_of_pos (by simpa using hf), List.append_assoc, List.singleton_append]
      · rw [h2, List.map_cons, List.filter_cons_of_neg hf]

/-- **`Filter`** returns the transactions `filter` holds of, in the order of the map, and
keeps the others. -/
theorem filter_spec (hm : Inv m) (f : Transaction → Bool) :
    (m.filter f).1 = m.items.values.filter f ∧
      TxMap.values (m.filter f).2.items = m.items.values.filter (fun tx => !f tx) ∧
      Inv (m.filter f).2 := by
  obtain ⟨h1, h2⟩ := filterLoop_spec f m.items.entries [] m.items [] rfl
  rw [List.nil_append] at h1 h2
  have hval : ∀ items : TxMap, items.entries = m.items.entries.filter (fun e => !f e.2) →
      items.values = m.items.values.filter (fun tx => !f tx) := by
    intro items he
    unfold TxMap.values
    rw [he, List.filter_map]
    rfl
  have hkeyed : ∀ items : TxMap, items.entries = m.items.entries.filter (fun e => !f e.2) →
      items.Keyed := fun items he =>
    hm.indexed.keyed.of_subset (he ▸ List.filter_subset_self _)
  unfold filter
  generalize filterLoop f m.items.entries m.items [] = r at h1 h2
  obtain ⟨items, removed⟩ := r
  subst h2
  by_cases hr : ((m.items.entries.map Sigma.snd).filter f).length > 0
  · -- the heap is rebuilt from the keys left
    simp only [hr, if_true]
    obtain ⟨hheap, hperm⟩ := GoHeap.init_spec items.keys
    exact ⟨rfl, hval items h1, ⟨hkeyed items h1, hperm, hheap⟩, nofun⟩
  · -- nothing was removed, so nothing changed
    simp only [hr, if_false]
    have hnone : ∀ e ∈ m.items.entries, (!f e.2) = true := by
      intro e he
      have hnil := List.length_eq_zero_iff.mp (Nat.eq_zero_of_not_pos hr)
      rw [List.filter_eq_nil_iff] at hnil
      simpa using hnil e.2 (List.mem_map_of_mem he)
    have hsame : items = m.items := AList.ext (by rw [h1, List.filter_eq_self.mpr hnone])
    subst hsame
    exact ⟨rfl, hval _ h1, hm⟩

/-! ### `Cap` -/

/-- The sorted copy of the heap that `Cap` takes is the nonces of the map in order. -/
theorem Indexed.mergeSort_index {items : TxMap} {index : List UInt64} (hi : Indexed items index) :
    index.mergeSort (fun a b => decide (a ≤ b)) = items.sorted.map Transaction.nonce := by
  have hcmp : (fun a b : UInt64 => decide (a ≤ b)) = fun a b => decide (a.toNat ≤ b.toNat) := by
    funext a b
    simp only [UInt64.le_iff_toNat_le]
  have hperm : (index.mergeSort fun a b => decide (a ≤ b)).Perm
      (items.sorted.map Transaction.nonce) :=
    calc (index.mergeSort fun a b => decide (a ≤ b)).Perm index := List.mergeSort_perm _ _
      List.Perm _ items.keys := hi.perm
      _ = items.values.map Transaction.nonce := hi.keyed.nonces.symm
      List.Perm _ (items.sorted.map Transaction.nonce) := ((TxMap.sorted_perm items).map _).symm
  -- the nonces are distinct as numbers, so the sort by them increases
  have hnd : (index.map UInt64.toNat).Nodup := by
    refine (hi.perm.map _).nodup_iff.mpr ?_
    rw [← hi.keyed.nonces, List.map_map]
    exact hi.keyed.nodup
  have hsort : Increasing UInt64.toNat (index.mergeSort fun a b => decide (a ≤ b)) := by
    rw [hcmp]
    exact increasing_mergeSort hnd
  have hnonces : Increasing UInt64.toNat (items.sorted.map Transaction.nonce) := by
    unfold Increasing
    rw [List.pairwise_map]
    exact hi.keyed.increasing
  exact hsort.eq_of_perm hnonces hperm

theorem len_eq (m : TxSortedMap) : m.len = m.items.sorted.length := by
  rw [len, (TxMap.sorted_perm _).length_eq, TxMap.values, List.length_map]

/-- **The loop of `Cap`** on the sorted nonces of `S`, counting `size` down to `k` with the map
holding the first `size` transactions of `S`: it deletes the others and returns them, the
highest nonce first. -/
theorem capLoop_spec {S : List Transaction} (hS : Increasing nonceKey S) (k : Nat) :
    ∀ (size : Nat) (items : TxMap) (drops : List Transaction), k ≤ size → size ≤ S.length →
      items.Keyed → items.values.Perm (S.take size) →
      ∃ items', capLoop (S.map Transaction.nonce) k size items drops =
          some (items', drops ++ ((S.take size).drop k).reverse) ∧
        items'.Keyed ∧ items'.values.Perm (S.take k)
  | 0, items, drops, hk, _, hkey, hp => by
    obtain rfl : k = 0 := by omega
    exact ⟨items, by simp [capLoop], hkey, hp⟩
  | size + 1, items, drops, hk, hs, hkey, hp => by
    rcases Nat.lt_or_eq_of_le hk with hlt | rfl
    · -- the transaction of the highest nonce left goes
      have hsz : size < S.length := by omega
      have htake : S.take (size + 1) = S.take size ++ [S[size]] :=
        List.take_succ_eq_append_getElem hsz
      have hmem : S[size] ∈ S.take (size + 1) := by
        rw [htake]
        exact List.mem_append_right _ (List.mem_singleton_self _)
      have hlook : items.lookup S[size].nonce = some S[size] :=
        hkey.lookup_of_mem (hp.symm.subset hmem)
      -- every nonce below it differs from it
      have hbelow : ∀ tx ∈ S.take size, tx.nonce ≠ S[size].nonce := by
        intro tx htx heq
        have hdrop : S[size] ∈ S.drop size := by
          rw [List.drop_eq_getElem_cons hsz]
          exact List.mem_cons_self
        have hlt := hS.lt_of_mem_take_of_mem_drop htx hdrop
        rw [nonceKey, nonceKey, heq] at hlt
        exact lt_irrefl _ hlt
      have hrest : (TxMap.values (items.erase S[size].nonce)).Perm (S.take size) := by
        rw [TxMap.values_erase hkey]
        refine (hp.filter _).trans ?_
        rw [htake, List.filter_append, List.filter_singleton, List.filter_eq_self.mpr (by simpa using hbelow)]
        simp
      obtain ⟨items', h1, h2, h3⟩ := capLoop_spec hS k size (items.erase S[size].nonce)
        (drops ++ [S[size]]) (by omega) (by omega) (hkey.erase _) hrest
      refine ⟨items', ?_, h2, h3⟩
      rw [capLoop, if_pos (by omega), List.getElem?_map, List.getElem?_eq_getElem hsz,
        Option.map_some]
      dsimp only
      rw [hlook, Option.toList_some, h1, htake,
        List.drop_append_of_le_length (by simp; omega), List.reverse_append]
      simp
    · -- the map is down to `k` transactions
      refine ⟨items, ?_, hkey, hp⟩
      rw [capLoop, if_neg (by omega), List.drop_eq_nil_of_le (by simp), List.reverse_nil,
        List.append_nil]

/-- **`Cap` with a threshold `k ≥ 0`** returns the transactions past the `k` of the lowest
nonces, the highest first, and keeps those `k`; the cache loses its back. -/
theorem cap_spec (hm : Inv m) (k : Nat) :
    ∃ drops m', m.cap k = some (drops, m') ∧ drops = (m.items.sorted.drop k).reverse ∧
      m'.items.sorted = m.items.sorted.take k ∧ Inv m' := by
  have hlen := len_eq m
  have hS := hm.indexed.keyed.increasing
  unfold cap
  by_cases hk : (m.len : Int) ≤ k
  · -- under the threshold: nothing to do
    have hle : m.items.sorted.length ≤ k := by omega
    rw [if_pos hk]
    exact ⟨[], m, rfl, by rw [List.drop_eq_nil_of_le hle]; rfl, (List.take_of_length_le hle).symm, hm⟩
  · have hlt : k < m.items.sorted.length := by omega
    rw [if_neg hk]
    obtain ⟨items', h1, h2, h3⟩ := capLoop_spec hS k m.items.sorted.length m.items []
      hlt.le (Nat.le_refl _) hm.indexed.keyed
      (by rw [List.take_length]; exact (TxMap.sorted_perm _).symm)
    rw [List.take_length, List.nil_append] at h1
    simp only [hm.indexed.mergeSort_index, hlen, h1, Int.toNat_natCast]
    have hsorted : items'.sorted = m.items.sorted.take k :=
      h2.sorted_eq (hS.sublist (List.take_sublist _ _)) h3.symm
    refine ⟨_, _, rfl, rfl, hsorted, ⟨⟨h2, ?_, (GoHeap.init_spec _).1⟩, ?_⟩⟩
    · -- the heap is rebuilt from the nonces kept
      calc (GoHeap.init ((m.items.sorted.map Transaction.nonce).take k)).Perm
            ((m.items.sorted.map Transaction.nonce).take k) := (GoHeap.init_spec _).2
        _ = (m.items.sorted.take k).map Transaction.nonce := List.map_take.symm
        List.Perm _ (items'.values.map Transaction.nonce) := (h3.map _).symm
        _ = items'.keys := h2.nonces
    · -- the cache loses the transactions dropped
      intro c hc
      obtain ⟨c₀, hc₀, rfl⟩ := Option.map_eq_some_iff.mp hc
      rw [hm.cache c₀ hc₀, hsorted, List.length_reverse, List.length_drop]
      congr 1
      omega

/-- `Cap` reads the index at `-1` when the threshold is negative, so it panics whatever the
loop meets before. -/
theorem capLoop_neg (index : List UInt64) {threshold : Int} (hk : threshold < 0) :
    ∀ (size : Nat) (items : TxMap) (drops : List Transaction),
      capLoop index threshold size items drops = none
  | 0, _, _ => by rw [capLoop, if_pos hk]
  | size + 1, items, drops => by
    rw [capLoop, if_pos (by omega)]
    split
    · exact capLoop_neg index hk size _ _
    · rfl

/-- **`Cap` panics on a negative threshold**, for every map. -/
theorem cap_neg (m : TxSortedMap) {k : Int} (hk : k < 0) : m.cap k = none := by
  unfold cap
  rw [if_neg (by omega)]
  dsimp only
  rw [capLoop_neg _ hk]

/-! ### `Remove` -/

/-- **`Remove`** says whether the nonce had a transaction, and deletes it. -/
theorem remove_spec (hm : Inv m) (n : UInt64) :
    (m.remove n).1 = (m.items.lookup n).isSome ∧
      TxMap.values (m.remove n).2.items = m.items.values.filter (fun tx => tx.nonce ≠ n) ∧
      Inv (m.remove n).2 := by
  have hi := hm.indexed
  unfold remove
  cases hl : m.items.lookup n with
  | none =>
    -- no transaction of that nonce: nothing changes
    rw [if_pos rfl]
    refine ⟨rfl, (List.filter_eq_self.mpr fun tx htx => ?_).symm, hm⟩
    have hne : tx.nonce ≠ n := by
      intro heq
      rw [← heq, hi.keyed.lookup_of_mem htx] at hl
      cases hl
    simpa using hne
  | some tx =>
    rw [if_neg nofun]
    have hmemk : n ∈ m.items.keys := AList.mem_keys.mpr (AList.lookup_isSome.mp (by rw [hl]; rfl))
    -- the linear search finds the nonce in the heap
    obtain ⟨i, hfind⟩ : ∃ i, m.index.findIdx? (· = n) = some i := by
      refine Option.isSome_iff_exists.mp ?_
      rw [List.findIdx?_isSome, List.any_eq_true]
      exact ⟨n, hi.perm.symm.subset hmemk, by simp⟩
    obtain ⟨hlt, hat, -⟩ := List.findIdx?_eq_some_iff_getElem.mp hfind
    obtain ⟨index', hrem, hheap, hperm⟩ := GoHeap.remove_spec hi.heap hlt
    rw [show m.index[i] = n by simpa using hat] at hrem hperm
    simp only [hfind, hrem]
    exact ⟨rfl, TxMap.values_erase hi.keyed n, ⟨hi.keyed.erase n, hi.perm_erase hmemk hperm, hheap⟩,
      nofun⟩

/-! ### `Put` and `Flatten` -/

/-- **`Put`** stores the transaction under its nonce, in place of one of the same nonce. -/
theorem put_spec (hm : Inv m) (tx : Transaction) :
    TxMap.values (m.put tx).items = tx :: m.items.values.filter (fun t => t.nonce ≠ tx.nonce) ∧
      Inv (m.put tx) := by
  have hi := hm.indexed
  have hindexed : Indexed (m.put tx).items (m.put tx).index := by
    show Indexed (m.items.insert tx.nonce tx)
      (if m.items.lookup tx.nonce = none then GoHeap.push m.index tx.nonce else m.index)
    by_cases hl : m.items.lookup tx.nonce = none
    · -- a new nonce goes onto the heap
      rw [if_pos hl]
      have hnot : tx.nonce ∉ m.items.keys := fun hmem => by
        have := AList.lookup_isSome.mpr (AList.mem_keys.mp hmem)
        rw [hl] at this
        cases this
      obtain ⟨hheap, hperm⟩ := GoHeap.push_spec hi.heap tx.nonce
      refine ⟨hi.keyed.insert tx, ?_, hheap⟩
      rw [AList.keys_insert, List.erase_of_not_mem hnot]
      exact hperm.trans (hi.perm.cons _)
    · -- the nonce is on the heap already
      rw [if_neg hl]
      have hmem : tx.nonce ∈ m.items.keys :=
        AList.mem_keys.mpr (AList.lookup_isSome.mp (Option.ne_none_iff_isSome.mp hl))
      refine ⟨hi.keyed.insert tx, ?_, hi.heap⟩
      rw [AList.keys_insert]
      exact hi.perm.trans (List.perm_cons_erase hmem)
  exact ⟨TxMap.values_insert hi.keyed tx, hindexed, nofun⟩

/-- **`Flatten`** returns the transactions sorted by nonce and changes nothing but the
cache. -/
theorem flatten_spec (hm : Inv m) :
    m.flatten.1 = m.items.sorted ∧ m.flatten.2.items = m.items ∧ Inv m.flatten.2 := by
  unfold flatten
  cases hc : m.cache with
  | some c => exact ⟨hm.cache c hc, rfl, hm⟩
  | none => exact ⟨rfl, rfl, ⟨hm.indexed, fun c hc => (Option.some.inj hc).symm⟩⟩

/-! ### `Ready` -/

/-- The run of the consecutive nonces `next`, `next + 1`, … at the front of a list, and what
follows it. -/
def runFrom (next : UInt64) : List Transaction → List Transaction × List Transaction
  | [] => ([], [])
  | tx :: rest =>
    if tx.nonce = next then
      let r := runFrom (next + 1) rest
      (tx :: r.1, r.2)
    else ([], tx :: rest)

/-- What `Ready` takes of the sorted list: the run from its head, if the head's nonce is at
most `start`. -/
def readyRun (start : UInt64) : List Transaction → List Transaction × List Transaction
  | [] => ([], [])
  | tx :: rest => if tx.nonce > start then ([], tx :: rest) else runFrom tx.nonce (tx :: rest)

/-- **The loop of `Ready`** returns the run of consecutive nonces from `next` at the front of
the sorted list, and leaves what follows. -/
theorem readyLoop_spec (items : TxMap) (index : List UInt64) (next : UInt64)
    (ready : List Transaction) (hi : Indexed items index) :
    Indexed (readyLoop items index next ready).1 (readyLoop items index next ready).2.1 ∧
      (readyLoop items index next ready).2.2 = ready ++ (runFrom next items.sorted).1 ∧
      TxMap.sorted (readyLoop items index next ready).1 = (runFrom next items.sorted).2 := by
  fun_induction readyLoop items index next ready with
  | case1 items index next ready hl =>
    -- an empty heap: no transactions
    have hnil : index = [] := by simpa using hl
    subst hnil
    have hv := hi.values_eq_nil
    simp [TxMap.sorted, hv, sortByNonce, hi, runFrom]
  | case2 items index ready least hl x index' hp ih =>
    obtain ⟨tx, index'', hpop, htx, hi', hsorted⟩ := hi.pop hl
    rw [hp, Option.some.injEq, Prod.mk.injEq] at hpop
    obtain ⟨-, rfl⟩ := hpop
    have hn := hi.keyed.nonce_of_lookup htx
    obtain ⟨h1, h2, h3⟩ := ih hi'
    refine ⟨h1, ?_, ?_⟩
    · rw [h2, htx, hsorted, runFrom, if_pos hn]
      simp
    · rw [h3, hsorted, runFrom, if_pos hn]
  | case3 items index ready least hl hp =>
    obtain ⟨tx, index'', hpop, -⟩ := hi.pop hl
    rw [hp] at hpop
    cases hpop
  | case4 items index next ready least hl hne =>
    -- the least nonce is not `next`: the run is empty
    obtain ⟨tx, index'', -, htx, -, hsorted⟩ := hi.pop hl
    have hn := hi.keyed.nonce_of_lookup htx
    refine ⟨hi, ?_, ?_⟩
    · rw [hsorted, runFrom, if_neg (by rw [hn]; exact hne), List.append_nil]
    · rw [hsorted, runFrom, if_neg (by rw [hn]; exact hne)]

/-- **`Ready`** returns the run of consecutive nonces at the front of the sorted list when
its head is at most `start`, and keeps what follows. -/
theorem ready_spec (hm : Inv m) (s : UInt64) :
    (m.ready s).1 = (readyRun s m.items.sorted).1 ∧
      TxMap.sorted (m.ready s).2.items = (readyRun s m.items.sorted).2 ∧ Inv (m.ready s).2 := by
  have hi := hm.indexed
  unfold ready
  cases hl : m.index[0]? with
  | none =>
    -- an empty heap: no transactions
    have hnil : m.index = [] := by simpa using hl
    have hv := (hnil ▸ hi).values_eq_nil
    have hs : m.items.sorted = [] := by simp [TxMap.sorted, hv, sortByNonce]
    dsimp only
    rw [hs]
    exact ⟨rfl, rfl, hm⟩
  | some least =>
    obtain ⟨tx, index', -, htx, -, hsorted⟩ := hi.pop hl
    have hn := hi.keyed.nonce_of_lookup htx
    dsimp only
    by_cases hs : least > s
    · -- the head is past `start`: nothing is ready
      rw [if_pos hs, hsorted, readyRun, if_pos (by rw [hn]; exact hs)]
      exact ⟨rfl, rfl, hm⟩
    · have hrun : readyRun s m.items.sorted = runFrom least m.items.sorted := by
        rw [hsorted, readyRun, if_neg (by rw [hn]; exact hs), hn]
      rw [if_neg hs, hrun]
      obtain ⟨h1, h2, h3⟩ := readyLoop_spec m.items m.index least [] hi
      generalize readyLoop m.items m.index least [] = r at h1 h2 h3
      obtain ⟨items, index, ready⟩ := r
      rw [List.nil_append] at h2
      exact ⟨h2, h3, h1, nofun⟩

/-! ### Runs of consecutive nonces -/

/-- The run and what follows it make up the list. -/
theorem runFrom_append (next : UInt64) (S : List Transaction) :
    (runFrom next S).1 ++ (runFrom next S).2 = S := by
  induction S generalizing next with
  | nil => rfl
  | cons tx rest ih =>
    by_cases h : tx.nonce = next
    · rw [runFrom, if_pos h]
      exact congrArg (tx :: ·) (ih (next + 1))
    · rw [runFrom, if_neg h]
      rfl

/-- `run` is a run of consecutive nonces from `next` that `rest` does not continue: its
nonces are `next`, `next + 1`, …, and the nonce after its last is not in `rest`. -/
def IsRun (next : UInt64) (run rest : List Transaction) : Prop :=
  run.map Transaction.nonce = (List.range run.length).map (fun i => next + UInt64.ofNat i) ∧
    ∀ tx ∈ rest, tx.nonce ≠ next + UInt64.ofNat run.length

theorem add_one_add_ofNat (next : UInt64) (i : Nat) :
    next + 1 + UInt64.ofNat i = next + UInt64.ofNat (i + 1) := by
  rw [UInt64.ofNat_add, UInt64.add_assoc, UInt64.add_comm 1]
  rfl

/-- **`runFrom` finds the maximal run** from `next` of an increasing list whose nonces are
all at least `next`. -/
theorem runFrom_isRun {S : List Transaction} (hS : Increasing nonceKey S) {next : UInt64}
    (hge : ∀ tx ∈ S, next.toNat ≤ tx.nonce.toNat) :
    IsRun next (runFrom next S).1 (runFrom next S).2 := by
  induction S generalizing next with
  | nil => exact ⟨rfl, nofun⟩
  | cons tx rest ih =>
    obtain ⟨hlt, hrest⟩ := increasing_cons.mp hS
    by_cases h : tx.nonce = next
    · -- `tx` is on the run; what follows is above it, so at least `next + 1`
      have hge' : ∀ y ∈ rest, (next + 1).toNat ≤ y.nonce.toNat := by
        intro y hy
        have hy' : next.toNat < y.nonce.toNat := h ▸ hlt y hy
        have hsz := UInt64.toNat_lt_size y.nonce
        rw [UInt64.toNat_add, UInt64.toNat_one]
        exact le_trans (Nat.mod_le _ _) hy'
      obtain ⟨hmap, hnext⟩ := ih hrest hge'
      rw [runFrom, if_pos h]
      refine ⟨?_, fun y hy => ?_⟩
      · rw [List.map_cons, hmap, List.length_cons, List.range_succ_eq_map, List.map_cons,
          List.map_map, h]
        congr 1
        · exact (UInt64.add_zero next).symm
        · exact List.map_congr_left fun i _ => add_one_add_ofNat next i
      · rw [List.length_cons, ← add_one_add_ofNat]
        exact hnext y hy
    · -- the run is empty, and everything after `tx` is above it
      rw [runFrom, if_neg h]
      refine ⟨rfl, fun y hy => ?_⟩
      rw [List.length_nil, show next + UInt64.ofNat 0 = next from UInt64.add_zero next]
      rcases List.mem_cons.mp hy with rfl | hy
      · exact h
      · intro heq
        have := hlt y hy
        have := hge tx List.mem_cons_self
        rw [nonceKey, nonceKey, heq] at *
        omega

/-- **What `Ready` takes of an increasing list**: the run from its head when the head is
at most `start`, and nothing otherwise. -/
theorem readyRun_spec {S : List Transaction} (hS : Increasing nonceKey S) (start : UInt64) :
    (readyRun start S).1 ++ (readyRun start S).2 = S ∧
      ∀ tx ∈ S.head?,
        (tx.nonce ≤ start → IsRun tx.nonce (readyRun start S).1 (readyRun start S).2) ∧
        (start < tx.nonce → (readyRun start S).1 = []) := by
  cases S with
  | nil => exact ⟨rfl, nofun⟩
  | cons tx rest =>
    refine ⟨?_, fun tx' htx' => ?_⟩
    · rw [readyRun]
      split
      · rfl
      · exact runFrom_append _ _
    · obtain rfl : tx = tx' := Option.some.inj htx'
      -- the nonces of an increasing list are at least its head's
      have hge : ∀ y ∈ tx :: rest, tx.nonce.toNat ≤ y.nonce.toNat := by
        intro y hy
        rcases List.mem_cons.mp hy with rfl | hy
        · exact Nat.le_refl _
        · exact Nat.le_of_lt ((increasing_cons.mp hS).1 y hy)
      refine ⟨fun hle => ?_, fun hgt => ?_⟩
      · rw [readyRun, if_neg (UInt64.not_lt.mpr hle)]
        exact runFrom_isRun hS hge
      · rw [readyRun, if_pos hgt]

/-! ### Runs of calls -/

/-- A call of a method of `txSortedMap`, with its arguments. -/
inductive Op where
  | put (tx : Transaction)
  | forward (threshold : UInt64)
  | filter (filter : Transaction → Bool)
  | cap (threshold : Int)
  | remove (nonce : UInt64)
  | ready (start : UInt64)
  | flatten

/-- The map after a call; `none` where the call panics. -/
def Op.apply : Op → TxSortedMap → Option TxSortedMap
  | .put tx, m => some (m.put tx)
  | .forward t, m => some (m.forward t).2
  | .filter f, m => some (m.filter f).2
  | .cap k, m => (m.cap k).map Prod.snd
  | .remove n, m => some (m.remove n).2
  | .ready s, m => some (m.ready s).2
  | .flatten, m => some m.flatten.2

/-- The maps that a run of calls reaches from a new one. -/
inductive Reachable : TxSortedMap → Prop
  | new : Reachable newTxSortedMap
  | step {m m' : TxSortedMap} (op : Op) : Reachable m → op.apply m = some m' → Reachable m'

/-- Every call keeps the invariant. -/
theorem Op.apply_inv {op : Op} {m' : TxSortedMap} (hm : Inv m) (h : op.apply m = some m') :
    Inv m' := by
  cases op with
  | put tx => cases h; exact (put_spec hm tx).2
  | forward t => cases h; exact (forward_spec hm t).2.2
  | filter f => cases h; exact (filter_spec hm f).2.2
  | cap k =>
    rcases Int.lt_or_le k 0 with hk | hk
    · -- a negative threshold panics
      rw [Op.apply, cap_neg m hk] at h
      cases h
    · obtain ⟨n, rfl⟩ := Int.eq_ofNat_of_zero_le hk
      obtain ⟨drops, m'', hcap, -, -, hinv⟩ := cap_spec hm n
      rw [Op.apply, hcap] at h
      cases h
      exact hinv
  | remove n => cases h; exact (remove_spec hm n).2.2
  | ready s => cases h; exact (ready_spec hm s).2.2
  | flatten => cases h; exact (flatten_spec hm).2.2

/-- **Every reachable map keeps the invariant.** -/
theorem reachable_inv (h : Reachable m) : Inv m := by
  induction h with
  | new => exact inv_new
  | step op _ hstep ih => exact Op.apply_inv ih hstep

/-! ### The contracts of the methods -/

/-- `Flatten` returns the transactions of the map in strictly increasing nonce order. -/
theorem flatten_sorted (hm : Inv m) :
    m.flatten.1.Perm m.items.values ∧ m.flatten.1.Pairwise fun a b => a.nonce < b.nonce := by
  rw [(flatten_spec hm).1]
  exact ⟨TxMap.sorted_perm _, List.Pairwise.imp nonceKey_lt.mp hm.indexed.keyed.increasing⟩

/-- `Forward(t)` returns the transactions of a nonce below `t` and keeps the others. -/
theorem forward_filter (hm : Inv m) (t : UInt64) :
    (m.forward t).1.Perm (m.items.values.filter fun tx => tx.nonce < t) ∧
      (TxMap.values (m.forward t).2.items).Perm
        (m.items.values.filter fun tx => t ≤ tx.nonce) := by
  obtain ⟨h1, h2, -⟩ := forward_spec hm t
  have hS := hm.indexed.keyed.increasing
  -- a nonce below `t` stays below it down the sorted list
  have hdown : ∀ a b : Transaction, nonceKey a < nonceKey b →
      decide (b.nonce < t) = true → decide (a.nonce < t) = true := by
    intro a b hab hb
    rw [decide_eq_true_eq, UInt64.lt_iff_toNat_lt] at hb ⊢
    exact lt_trans hab hb
  have hkeep : (m.items.sorted.filter fun tx => !decide (tx.nonce < t)) =
      m.items.sorted.filter fun tx => t ≤ tx.nonce :=
    List.filter_congr fun tx _ => by simp only [← decide_not, UInt64.not_lt]
  refine ⟨?_, (TxMap.sorted_perm _).symm.trans ?_⟩
  · rw [h1, hS.takeWhile_eq_filter hdown]
    exact (TxMap.sorted_perm _).filter _
  · rw [h2, hS.dropWhile_eq_filter hdown, hkeep]
    exact (TxMap.sorted_perm _).filter _

/-- `Cap(k)`, `k ≥ 0`, returns the `len - k` transactions of the highest nonces and keeps
the others. -/
theorem cap_drops (hm : Inv m) (k : Nat) :
    ∃ drops m', m.cap k = some (drops, m') ∧ drops.length = m.len - k ∧
      (drops ++ TxMap.values m'.items).Perm m.items.values ∧
      ∀ a ∈ TxMap.values m'.items, ∀ b ∈ drops, a.nonce < b.nonce := by
  obtain ⟨drops, m', hcap, rfl, hsorted, -⟩ := cap_spec hm k
  have hS := hm.indexed.keyed.increasing
  -- the transactions kept are the first `k` of the sorted list
  have hkept : (TxMap.values m'.items).Perm (m.items.sorted.take k) :=
    hsorted ▸ (TxMap.sorted_perm _).symm
  refine ⟨_, m', hcap, by rw [List.length_reverse, List.length_drop, len_eq], ?_, ?_⟩
  · calc ((m.items.sorted.drop k).reverse ++ TxMap.values m'.items).Perm
          (m.items.sorted.drop k ++ m.items.sorted.take k) := (List.reverse_perm _).append hkept
      List.Perm _ (m.items.sorted.take k ++ m.items.sorted.drop k) := List.perm_append_comm
      _ = m.items.sorted := List.take_append_drop k _
      List.Perm _ m.items.values := TxMap.sorted_perm _
  · intro a ha b hb
    exact nonceKey_lt.mp
      (hS.lt_of_mem_take_of_mem_drop (hkept.subset ha) (List.mem_reverse.mp hb))

/-- `Ready(s)` returns and removes the run of consecutive nonces from the least one when that
one is at most `s`, and nothing otherwise. -/
theorem ready_run (hm : Inv m) (s : UInt64) :
    (m.ready s).1 ++ TxMap.sorted (m.ready s).2.items = m.items.sorted ∧
      ∀ tx ∈ m.items.values, (∀ y ∈ m.items.values, tx.nonce ≤ y.nonce) →
        (tx.nonce ≤ s → IsRun tx.nonce (m.ready s).1 (TxMap.sorted (m.ready s).2.items)) ∧
        (s < tx.nonce → (m.ready s).1 = []) := by
  obtain ⟨h1, h2, -⟩ := ready_spec hm s
  have hS := hm.indexed.keyed.increasing
  obtain ⟨happ, hrun⟩ := readyRun_spec hS s
  rw [h1, h2]
  refine ⟨happ, fun tx htx hmin => hrun tx ?_⟩
  -- the transaction of the least nonce heads the sorted list
  refine hS.head?_eq_of_le ((TxMap.sorted_perm _).symm.subset htx) fun y hy => ?_
  exact UInt64.le_iff_toNat_le.mp (hmin y ((TxMap.sorted_perm _).subset hy))

/-- **The invariant and the contracts of `txSortedMap`**, over every run of calls: the heap
holds each nonce of the map once and is a heap, a cache is the sorted transactions, and
`Flatten`, `Forward`, `Cap` with a threshold `k ≥ 0`, `Remove` and `Ready` do what their
comments say. -/
theorem tx_sorted_map_contracts (h : Reachable m) :
    (m.index.Perm m.items.keys ∧ GoHeap.IsHeap m.index) ∧
      (∀ c, m.cache = some c → c = m.items.sorted) ∧
      (m.flatten.1.Perm m.items.values ∧ m.flatten.1.Pairwise fun a b => a.nonce < b.nonce) ∧
      (∀ t, (m.forward t).1.Perm (m.items.values.filter fun tx => tx.nonce < t) ∧
        (TxMap.values (m.forward t).2.items).Perm
          (m.items.values.filter fun tx => t ≤ tx.nonce)) ∧
      (∀ k : Nat, ∃ drops m', m.cap k = some (drops, m') ∧ drops.length = m.len - k ∧
        (drops ++ TxMap.values m'.items).Perm m.items.values ∧
        ∀ a ∈ TxMap.values m'.items, ∀ b ∈ drops, a.nonce < b.nonce) ∧
      (∀ n, (m.remove n).1 = (m.items.lookup n).isSome ∧
        TxMap.values (m.remove n).2.items = m.items.values.filter fun tx => tx.nonce ≠ n) ∧
      (∀ s, (m.ready s).1 ++ TxMap.sorted (m.ready s).2.items = m.items.sorted ∧
        ∀ tx ∈ m.items.values, (∀ y ∈ m.items.values, tx.nonce ≤ y.nonce) →
          (tx.nonce ≤ s → IsRun tx.nonce (m.ready s).1 (TxMap.sorted (m.ready s).2.items)) ∧
          (s < tx.nonce → (m.ready s).1 = [])) := by
  have hm := reachable_inv h
  exact ⟨⟨hm.indexed.perm, hm.indexed.heap⟩, hm.cache, flatten_sorted hm, forward_filter hm,
    cap_drops hm, fun n => ⟨(remove_spec hm n).1, (remove_spec hm n).2.1⟩, ready_run hm⟩

/-- Two transactions put in, of nonces 5 and 3: `Cap(1)` drops one of them. -/
theorem tx_sorted_map_contracts_put_put :
    ∃ drops m', ((newTxSortedMap.put ⟨5, 1, 21000, 0⟩).put ⟨3, 1, 21000, 0⟩).cap (1 : Nat) =
      some (drops, m') ∧ drops.length = 1 := by
  obtain ⟨drops, m', hcap, hlen, -, -⟩ := (tx_sorted_map_contracts
    (.step (.put ⟨3, 1, 21000, 0⟩) (.step (.put ⟨5, 1, 21000, 0⟩) .new rfl) rfl)).2.2.2.2.1 1
  exact ⟨drops, m', hcap, by rw [hlen]; rfl⟩

/-- `Cap` with a negative threshold panics, on a map a run reaches: a new one. -/
theorem cap_minus_one_panics : Reachable newTxSortedMap ∧ newTxSortedMap.cap (-1) = none :=
  ⟨.new, cap_neg _ (by decide)⟩

end TxSortedMap

end Core
