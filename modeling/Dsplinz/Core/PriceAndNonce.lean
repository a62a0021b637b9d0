import Dsplinz.Lib.GoHeap
import Dsplinz.Core.TxList

/-!
# Transactions by price and nonce

`core/types/transaction.go` gives the miner the pending transactions of many accounts in the
order it should try them: `NewTransactionsByPriceAndNonce(signer, txs)` takes a map from each
account to its transactions sorted by nonce, keeps the first transaction of each account in a
heap by price (`heads`, a `TxByPrice` under Go's `container/heap`) and the rest in the map.
`Peek` returns the root, the best priced head; `Shift` replaces it with the next transaction
of the same account and `Fix`es the heap; `Pop` takes it off, and with it every later
transaction of its account.

What the set still holds for an account is its head, followed by the rest of its list
(`TransactionsByPriceAndNonce.pending`); an account without a head holds nothing, whatever
the map still keeps for it. The set's invariant (`TransactionsByPriceAndNonce.Inv`) carries
the rest:

| field | meaning |
|---|---|
| `heap` | the heads are a heap by price |
| `nodup` | no two heads are of one account |
| `senders` | what the map keeps for an account with a head is that account's |

The results:

* `newTransactionsByPriceAndNonce_spec` – a map whose lists are nonempty and of their key's
  account gives a set with the invariant that holds each account's list;
* `Inv.peek`, `Inv.shift`, `Inv.pop` – on a set with the invariant, `Peek` returns the next
  transaction of an account, priced at least as high as every head; `Shift` moves that account
  on by one transaction and `Pop` drops what it has left;
* `reachable_inv` – hence the invariant holds after any interleaving of `Shift` and `Pop`;
* `drain_spec` – calling `Peek` and `Shift` until `Peek` returns nil yields what the set holds,
  each account's transactions in their order;
* `tx_price_nonce_order` – all of it for the set built from a map of nonce-sorted lists.

`Sender(signer, tx)` recovers the account from the signature; the model takes it as a function
`sender` of the transaction, its error dropped as the code drops it. A `range` over a Go map
visits its entries in an unspecified order, which the model takes to be the order of the
`AList`'s entries, with the values as they were when the loop started. Go reads a value when
the loop reaches it, so the two differ only when one list holds a transaction of another
account whose entry comes later: where every list holds its key's transactions, they agree.
-/

namespace Core

/-- An element of a `TxByPrice` as its `Less` compares them: the higher price first, and two
transactions of one price tie. -/
structure ByPrice where
  tx : Transaction
  deriving DecidableEq, Repr

namespace ByPrice

/-- `s.Less(i, j)`: `s[i].data.Price.Cmp(s[j].data.Price) > 0`. -/
instance : LT ByPrice := ⟨fun a b => b.tx.price < a.tx.price⟩

instance : DecidableLT ByPrice := fun a b => inferInstanceAs (Decidable (b.tx.price < a.tx.price))

theorem lt_iff {a b : ByPrice} : a < b ↔ b.tx.price < a.tx.price := Iff.rfl

/-- Comparing prices is a strict weak order, as a `Less` of Go's heap must be. -/
instance : IsStrictWeakOrder ByPrice (· < ·) where
  irrefl a := Int.lt_irrefl a.tx.price
  trans a b c hab hbc := Int.lt_trans hbc hab
  incomp_trans a b c hab hbc := by
    simp only [lt_iff] at hab hbc ⊢
    omega

end ByPrice

/-- The Go map `map[common.Address]Transactions`. -/
abbrev AccountTxs (Address : Type) := AList fun _ : Address => List Transaction

/-- `TransactionsByPriceAndNonce`: the rest of each account's transactions, and a heap of
the next one of each. -/
structure TransactionsByPriceAndNonce (Address : Type) where
  txs : AccountTxs Address
  heads : List ByPrice

variable {Address : Type} [DecidableEq Address] (sender : Transaction → Address)

/-- The loop of `NewTransactionsByPriceAndNonce` over the map's entries: the first
transaction of each account goes to the heads, the rest back to the map under the account
of its sender. An empty list panics at `accTxs[0]`. -/
def newLoop : List (Σ _ : Address, List Transaction) → AccountTxs Address → List ByPrice →
    Option (AccountTxs Address × List ByPrice)
  | [], txs, heads => some (txs, heads)
  | ⟨fromAcc, accTxs⟩ :: rest, txs, heads =>
    match accTxs with
    | [] => none
    | tx :: tail =>
      let acc := sender tx
      let txs := txs.insert acc tail
      let txs := if fromAcc ≠ acc then txs.erase fromAcc else txs
      newLoop rest txs (heads ++ [⟨tx⟩])

/-- `NewTransactionsByPriceAndNonce(signer, txs)`. -/
def newTransactionsByPriceAndNonce (txs : AccountTxs Address) :
    Option (TransactionsByPriceAndNonce Address) :=
  (newLoop sender txs.entries txs []).map fun r => ⟨r.1, GoHeap.init r.2⟩

namespace TransactionsByPriceAndNonce

/-- `t.Peek()`: the best priced head, or nil. -/
def peek (t : TransactionsByPriceAndNonce Address) : Option Transaction :=
  t.heads.head?.map ByPrice.tx

/-- `t.Shift()`: the next transaction of the best head's account takes its place, or the
head goes if the account has none. `t.heads[0]` panics on an empty heap. -/
def shift (t : TransactionsByPriceAndNonce Address) : Option (TransactionsByPriceAndNonce Address) :=
  match t.heads with
  | [] => none
  | head :: _ =>
    let acc := sender head.tx
    match t.txs.lookup acc with
    | some (tx :: rest) => some ⟨t.txs.insert acc rest, GoHeap.fix (t.heads.set 0 ⟨tx⟩) 0⟩
    | _ => (GoHeap.pop t.heads).map fun r => ⟨t.txs, r.2⟩

/-- `t.Pop()`: the best head goes, and with it its account. -/
def pop (t : TransactionsByPriceAndNonce Address) : Option (TransactionsByPriceAndNonce Address) :=
  (GoHeap.pop t.heads).map fun r => ⟨t.txs, r.2⟩

/-- A miner's loop over the set: `Peek`, and `Shift` while `Peek` returns a transaction, for
at most `fuel` rounds. It returns the transactions peeked and the set at the end. -/
def drain : Nat → TransactionsByPriceAndNonce Address →
    Option (List Transaction × TransactionsByPriceAndNonce Address)
  | 0, t => some ([], t)
  | fuel + 1, t =>
    match t.peek with
    | none => some ([], t)
    | some tx => do
      let t' ← t.shift sender
      let r ← drain fuel t'
      some (tx :: r.1, r.2)

end TransactionsByPriceAndNonce

/-! ### What the set holds -/

section Keys

variable {β : Type} (key : β → Address)

/-- In a list of distinct keys, the search by an element's key finds that element. -/
theorem find?_key_of_mem {l : List β} (hnd : (l.map key).Nodup) {x : β} (hx : x ∈ l) :
    l.find? (fun y => decide (key y = key x)) = some x := by
  induction l with
  | nil => cases hx
  | cons y l ih =>
    rw [List.map_cons, List.nodup_cons] at hnd
    by_cases hyx : key y = key x
    · -- `x` is `y`: a later `x` would repeat `y`'s key
      have hxy : x = y := by
        rcases List.mem_cons.mp hx with rfl | hxl
        · rfl
        · exact absurd (hyx ▸ List.mem_map_of_mem hxl) hnd.1
      subst hxy
      simp
    · have hxl : x ∈ l := (List.mem_cons.mp hx).resolve_left fun h => hyx (h ▸ rfl)
      simp only [List.find?_cons, hyx, decide_false]
      exact ih hnd.2 hxl

theorem find?_key_eq_none {l : List β} {a : Address} (h : ∀ y ∈ l, key y ≠ a) :
    l.find? (fun y => decide (key y = a)) = none :=
  List.find?_eq_none.mpr fun y hy => by simpa using h y hy

end Keys

namespace TransactionsByPriceAndNonce

/-- What the set still holds of account `a`: its head and the rest of its list, or nothing
once it has no head. -/
def pending (t : TransactionsByPriceAndNonce Address) (a : Address) : List Transaction :=
  match t.heads.find? (fun h => decide (sender h.tx = a)) with
  | some h => h.tx :: (t.txs.lookup a).getD []
  | none => []

/-- **The invariant of the set.** -/
structure Inv (t : TransactionsByPriceAndNonce Address) : Prop where
  heap : GoHeap.IsHeap t.heads
  nodup : (t.heads.map fun h => sender h.tx).Nodup
  senders : ∀ h ∈ t.heads, ∀ x ∈ (t.txs.lookup (sender h.tx)).getD [], sender x = sender h.tx

variable {sender}

theorem pending_of_mem {t : TransactionsByPriceAndNonce Address}
    (hnd : (t.heads.map fun h => sender h.tx).Nodup) {h : ByPrice} (hh : h ∈ t.heads) :
    pending sender t (sender h.tx) = h.tx :: (t.txs.lookup (sender h.tx)).getD [] := by
  rw [pending, find?_key_of_mem (fun h => sender h.tx) hnd hh]

theorem pending_of_forall_ne {t : TransactionsByPriceAndNonce Address} {a : Address}
    (h : ∀ y ∈ t.heads, sender y.tx ≠ a) : pending sender t a = [] := by
  rw [pending, find?_key_eq_none (fun h : ByPrice => sender h.tx) h]

/-- Two sets with the same head for `a` and the same rest of its list hold the same of `a`. -/
theorem pending_congr {t t' : TransactionsByPriceAndNonce Address} {a : Address}
    (hnd : (t.heads.map fun h => sender h.tx).Nodup)
    (hnd' : (t'.heads.map fun h => sender h.tx).Nodup)
    (hmem : ∀ y, sender y.tx = a → (y ∈ t'.heads ↔ y ∈ t.heads))
    (hlk : t'.txs.lookup a = t.txs.lookup a) : pending sender t' a = pending sender t a := by
  by_cases hex : ∃ y ∈ t.heads, sender y.tx = a
  · obtain ⟨y, hy, rfl⟩ := hex
    rw [pending_of_mem hnd hy, pending_of_mem hnd' ((hmem y rfl).mpr hy), hlk]
  · simp only [not_exists, not_and] at hex
    rw [pending_of_forall_ne hex, pending_of_forall_ne fun y hy hya => hex y ((hmem y hya).mp hy) hya]

/-- `Peek` returns nil exactly when the set holds nothing. -/
theorem peek_eq_none_iff (t : TransactionsByPriceAndNonce Address) :
    t.peek = none ↔ ∀ a, pending sender t a = [] := by
  constructor
  · intro hp a
    have hnil : t.heads = [] := by simpa [peek] using hp
    exact pending_of_forall_ne (by simp [hnil])
  · intro hall
    cases hheads : t.heads with
    | nil => simp [peek, hheads]
    | cons head rest =>
      -- the account of the first head holds at least that head
      have := hall (sender head.tx)
      simp [pending, hheads] at this

/-! ### One call -/

/-- **`Peek` returns the next transaction of an account**, priced at least as high as every
head, the next transaction of every account. -/
theorem Inv.peek {t : TransactionsByPriceAndNonce Address} (hi : Inv sender t) {tx : Transaction}
    (hp : t.peek = some tx) :
    pending sender t (sender tx) = tx :: (t.txs.lookup (sender tx)).getD [] ∧
      ∀ h ∈ t.heads, h.tx.price ≤ tx.price := by
  obtain ⟨head, rest, hheads, rfl⟩ : ∃ head rest, t.heads = head :: rest ∧ head.tx = tx := by
    cases hh : t.heads with
    | nil => simp [TransactionsByPriceAndNonce.peek, hh] at hp
    | cons head rest =>
      simp only [TransactionsByPriceAndNonce.peek, hh, List.head?_cons, Option.map_some,
        Option.some.injEq] at hp
      exact ⟨head, rest, rfl, hp⟩
  have hmem : head ∈ t.heads := by simp [hheads]
  refine ⟨pending_of_mem hi.nodup hmem, fun h hh => ?_⟩
  -- the root of the heap is not below any element: no head is priced higher
  have hroot := GoHeap.not_lt_root hi.heap (x := head) (by simp [hheads]) h hh
  rw [ByPrice.lt_iff] at hroot
  omega

omit [DecidableEq Address] in
/-- The heads of a set whose `Peek` returns `tx`: `tx`'s head first. -/
theorem heads_of_peek {t : TransactionsByPriceAndNonce Address} {tx : Transaction}
    (hp : t.peek = some tx) : ∃ rest, t.heads = ⟨tx⟩ :: rest := by
  cases hh : t.heads with
  | nil => simp [TransactionsByPriceAndNonce.peek, hh] at hp
  | cons head rest =>
    simp only [TransactionsByPriceAndNonce.peek, hh, List.head?_cons, Option.map_some,
      Option.some.injEq] at hp
    exact ⟨rest, by rw [← hp]⟩

/-- **Taking the best head off the heap**, as `Pop` and a `Shift` with nothing to follow do,
keeps the invariant and drops what its account held. -/
theorem Inv.popHead {t : TransactionsByPriceAndNonce Address} (hi : Inv sender t)
    {head : ByPrice} {rest : List ByPrice} (hheads : t.heads = head :: rest) :
    ∃ heads', GoHeap.pop t.heads = some (head, heads') ∧ Inv sender ⟨t.txs, heads'⟩ ∧
      ∀ a, pending sender ⟨t.txs, heads'⟩ a =
        if a = sender head.tx then [] else pending sender t a := by
  obtain ⟨x, heads', hpop, hx, hheap, hperm⟩ := GoHeap.pop_spec hi.heap (by simp [hheads])
  rw [hheads, List.getElem?_cons_zero, Option.some.injEq] at hx
  subst hx
  have hnd : ((head :: heads').map fun h => sender h.tx).Nodup :=
    (hperm.map _).nodup_iff.mpr hi.nodup
  rw [List.map_cons, List.nodup_cons] at hnd
  have hmem : ∀ y, y ∈ t.heads ↔ y = head ∨ y ∈ heads' := fun y => by
    rw [← hperm.mem_iff, List.mem_cons]
  refine ⟨heads', hpop, ⟨hheap, hnd.2, fun h hh => hi.senders h ((hmem h).mpr (.inr hh))⟩,
    fun a => ?_⟩
  split_ifs with ha
  · -- the account of the head has no head left
    refine pending_of_forall_ne fun y hy hya => hnd.1 ?_
    rw [← ha, ← hya]
    exact List.mem_map_of_mem hy
  · refine pending_congr hi.nodup hnd.2 (fun y hya => ?_) rfl
    rw [hmem y]
    constructor
    · exact .inr
    · rintro (rfl | hy)
      · exact absurd hya.symm ha
      · exact hy

/-- **`Pop` drops what the peeked account has left** and keeps the invariant. -/
theorem Inv.pop {t : TransactionsByPriceAndNonce Address} (hi : Inv sender t) {tx : Transaction}
    (hp : t.peek = some tx) :
    ∃ t', t.pop = some t' ∧ Inv sender t' ∧
      ∀ a, pending sender t' a = if a = sender tx then [] else pending sender t a := by
  obtain ⟨rest, hheads⟩ := heads_of_peek hp
  obtain ⟨heads', hpop, hinv, hpend⟩ := hi.popHead hheads
  exact ⟨⟨t.txs, heads'⟩, by simp [TransactionsByPriceAndNonce.pop, hpop], hinv, hpend⟩

/-- A `Shift` whose account has nothing after its head takes the head off. -/
theorem shift_of_pop {t : TransactionsByPriceAndNonce Address} (hi : Inv sender t)
    {tx : Transaction} {rest : List ByPrice} (hheads : t.heads = ⟨tx⟩ :: rest)
    (hself : pending sender t (sender tx) = tx :: (t.txs.lookup (sender tx)).getD [])
    (hlk : t.txs.lookup (sender tx) = none ∨ t.txs.lookup (sender tx) = some []) :
    ∃ t', t.shift sender = some t' ∧ Inv sender t' ∧
      ∀ a, pending sender t' a =
        if a = sender tx then (pending sender t a).tail else pending sender t a := by
  obtain ⟨heads', hpop, hinv, hpend⟩ := hi.popHead hheads
  have hpop' : GoHeap.pop (⟨tx⟩ :: rest) = some (⟨tx⟩, heads') := hheads ▸ hpop
  have hshift : t.shift sender = some ⟨t.txs, heads'⟩ := by
    rcases hlk with hlk | hlk <;>
      simp only [TransactionsByPriceAndNonce.shift, hheads, hlk, hpop', Option.map_some]
  refine ⟨_, hshift, hinv, fun a => ?_⟩
  rw [hpend a]
  split_ifs with ha
  · -- the head was all the account held
    rw [ha, hself]
    rcases hlk with hlk | hlk <;> simp [hlk]
  · rfl

/-- **`Shift` moves the peeked account on by one transaction** and keeps the invariant. -/
theorem Inv.shift {t : TransactionsByPriceAndNonce Address} (hi : Inv sender t)
    {tx : Transaction} (hp : t.peek = some tx) :
    ∃ t', t.shift sender = some t' ∧ Inv sender t' ∧
      ∀ a, pending sender t' a =
        if a = sender tx then (pending sender t a).tail else pending sender t a := by
  obtain ⟨rest, hheads⟩ := heads_of_peek hp
  have hhead : (⟨tx⟩ : ByPrice) ∈ t.heads := by simp [hheads]
  have hself := pending_of_mem hi.nodup hhead
  cases hlk : t.txs.lookup (sender tx) with
  | some next =>
    cases next with
    | cons tx' rest' =>
      -- the next transaction of the account takes the head's place
      have hsend : ∀ x ∈ tx' :: rest', sender x = sender tx := fun x hx =>
        hi.senders _ hhead x (by simpa [hlk] using hx)
      obtain ⟨hheap, hperm⟩ := GoHeap.fix_spec hi.heap (i := 0) (by simp [hheads]) ⟨tx'⟩
      have hset : t.heads.set 0 ⟨tx'⟩ = ⟨tx'⟩ :: rest := by rw [hheads, List.set_cons_zero]
      replace hperm := hperm.trans (List.Perm.of_eq hset)
      have hkeys : ((⟨tx'⟩ :: rest : List ByPrice).map fun h => sender h.tx) =
          t.heads.map fun h => sender h.tx := by
        simp [hheads, hsend tx' (List.mem_cons_self ..)]
      have hnd := (hperm.map fun h : ByPrice => sender h.tx).nodup_iff.mpr (hkeys ▸ hi.nodup)
      have hmem : ∀ y, y ∈ GoHeap.fix (t.heads.set 0 ⟨tx'⟩) 0 ↔ y = ⟨tx'⟩ ∨ y ∈ rest :=
        fun y => by rw [hperm.mem_iff, List.mem_cons]
      have hshift : t.shift sender = some ⟨t.txs.insert (sender tx) rest',
          GoHeap.fix (t.heads.set 0 ⟨tx'⟩) 0⟩ := by
        simp only [TransactionsByPriceAndNonce.shift, hheads, hlk]
      refine ⟨_, hshift, ⟨hheap, hnd, fun h hh x hx => ?_⟩, fun a => ?_⟩
      · by_cases hsa : sender h.tx = sender tx
        · rw [hsa, AList.lookup_insert, Option.getD_some] at hx
          rw [hsa]
          exact hsend x (List.mem_cons_of_mem _ hx)
        · rw [AList.lookup_insert_ne hsa] at hx
          rcases (hmem h).mp hh with rfl | hr
          · exact absurd (hsend tx' (List.mem_cons_self ..)) hsa
          · exact hi.senders h (by simp [hheads, hr]) x hx
      · split_ifs with ha
        · subst ha
          have hnew : (⟨tx'⟩ : ByPrice) ∈ GoHeap.fix (t.heads.set 0 ⟨tx'⟩) 0 :=
            (hmem _).mpr (.inl rfl)
          have := pending_of_mem
            (t := ⟨t.txs.insert (sender tx) rest', GoHeap.fix (t.heads.set 0 ⟨tx'⟩) 0⟩) hnd hnew
          rw [hsend tx' (List.mem_cons_self ..)] at this
          rw [this, hself, hlk]
          simp
        · refine pending_congr hi.nodup hnd (fun y hya => ?_) (AList.lookup_insert_ne ha)
          rw [hmem y, hheads, List.mem_cons]
          -- neither the new head nor the old one is of `a`
          have hne : ∀ z : ByPrice, sender z.tx = sender tx → y ≠ z := fun z hz hyz =>
            ha (by rw [← hya, hyz, hz])
          constructor <;> rintro (h | h)
          · exact absurd h (hne _ (hsend tx' (List.mem_cons_self ..)))
          · exact .inr h
          · exact absurd h (hne _ rfl)
          · exact .inr h
    | nil => exact shift_of_pop hi hheads hself (.inr hlk)
  | none => exact shift_of_pop hi hheads hself (.inl hlk)

/-! ### Building the set -/

/-- **The loop of `NewTransactionsByPriceAndNonce`**, over entries whose lists are nonempty
and hold their key's transactions: it appends the first transaction of each list to the
heads and puts the rest back under the key. -/
theorem newLoop_spec : ∀ (E : List (Σ _ : Address, List Transaction)), E.NodupKeys →
    (∀ e ∈ E, e.2 ≠ [] ∧ ∀ x ∈ e.2, sender x = e.1) →
    ∀ (txs : AccountTxs Address) (heads : List ByPrice), ∃ txs',
      newLoop sender E txs heads = some (txs', heads ++ E.filterMap fun e => e.2.head?.map ByPrice.mk) ∧
      ∀ a, txs'.lookup a = ((E.dlookup a).map List.tail).or (txs.lookup a)
  | [], _, _, txs, heads => ⟨txs, by simp [newLoop], fun a => by simp⟩
  | ⟨k, l⟩ :: E, hnd, hE, txs, heads => by
    obtain ⟨hl, hsend⟩ := hE _ List.mem_cons_self
    obtain ⟨x, tail, rfl⟩ := List.exists_cons_of_ne_nil hl
    rw [List.nodupKeys_cons] at hnd
    obtain ⟨txs', hloop, hlk⟩ := newLoop_spec E hnd.2
      (fun e he => hE e (List.mem_cons_of_mem _ he)) (txs.insert k tail) (heads ++ [⟨x⟩])
    have hx : sender x = k := hsend x List.mem_cons_self
    refine ⟨txs', ?_, fun a => ?_⟩
    · -- the first transaction is of the key's account, so nothing is erased
      simp [newLoop, hx, hloop]
    · by_cases hak : a = k
      · subst hak
        simp [hlk, List.dlookup_eq_none.mpr hnd.1]
      · rw [hlk, List.dlookup_cons_ne _ _ hak, AList.lookup_insert_ne hak]

omit [DecidableEq Address] in
/-- The heads the loop collects are of the entries' accounts, one each, in their order. -/
theorem keys_heads : ∀ (E : List (Σ _ : Address, List Transaction)),
    (∀ e ∈ E, e.2 ≠ [] ∧ ∀ x ∈ e.2, sender x = e.1) →
    (E.filterMap fun e => e.2.head?.map ByPrice.mk).map (fun h => sender h.tx) = E.keys
  | [], _ => rfl
  | ⟨k, l⟩ :: E, hE => by
    obtain ⟨hl, hsend⟩ := hE _ List.mem_cons_self
    obtain ⟨x, tail, rfl⟩ := List.exists_cons_of_ne_nil hl
    simp [hsend x List.mem_cons_self, keys_heads E fun e he => hE e (List.mem_cons_of_mem _ he)]

/-- **`NewTransactionsByPriceAndNonce` on a map of nonempty lists of their key's account**
builds a set with the invariant, which holds each account's list. -/
theorem newTransactionsByPriceAndNonce_spec (m : AccountTxs Address)
    (hm : ∀ a l, m.lookup a = some l → l ≠ [] ∧ ∀ x ∈ l, sender x = a) :
    ∃ t, newTransactionsByPriceAndNonce sender m = some t ∧ Inv sender t ∧
      ∀ a, t.pending sender a = (m.lookup a).getD [] := by
  have hE : ∀ e ∈ m.entries, e.2 ≠ [] ∧ ∀ x ∈ e.2, sender x = e.1 := fun e he =>
    hm e.1 e.2 (List.mem_dlookup m.nodupKeys he)
  obtain ⟨txs', hloop, hlk⟩ := newLoop_spec m.entries m.nodupKeys hE m []
  obtain ⟨hheap, hperm⟩ := GoHeap.init_spec (m.entries.filterMap fun e => e.2.head?.map ByPrice.mk)
  have hrest : ∀ a, txs'.lookup a = (m.lookup a).map List.tail := fun a => by
    have hdl : m.entries.dlookup a = m.lookup a := rfl
    rw [hlk, hdl]
    cases m.lookup a <;> rfl
  -- a head is the first transaction of its account's list, and every list has its head
  have hhead : ∀ h ∈ GoHeap.init (m.entries.filterMap fun e => e.2.head?.map ByPrice.mk),
      ∃ tail, m.lookup (sender h.tx) = some (h.tx :: tail) := by
    intro h hh
    obtain ⟨e, he, hhd⟩ := List.mem_filterMap.mp (hperm.mem_iff.mp hh)
    obtain ⟨x, hx, rfl⟩ := Option.map_eq_some_iff.mp hhd
    obtain ⟨tail, htail⟩ := List.head?_eq_some_iff.mp hx
    have hsx : sender x = e.1 := (hE e he).2 x (by rw [htail]; exact List.mem_cons_self)
    refine ⟨tail, ?_⟩
    rw [hsx, ← htail]
    exact List.mem_dlookup m.nodupKeys he
  have hmem : ∀ a x tail, m.lookup a = some (x :: tail) →
      (⟨x⟩ : ByPrice) ∈ GoHeap.init (m.entries.filterMap fun e => e.2.head?.map ByPrice.mk) := by
    intro a x tail hl
    refine hperm.mem_iff.mpr (List.mem_filterMap.mpr ⟨⟨a, x :: tail⟩, ?_, rfl⟩)
    exact List.of_mem_dlookup hl
  have hnd : ((GoHeap.init (m.entries.filterMap fun e => e.2.head?.map ByPrice.mk)).map
      fun h => sender h.tx).Nodup := by
    rw [(hperm.map _).nodup_iff, keys_heads _ hE]
    exact m.nodupKeys
  refine ⟨⟨txs', GoHeap.init (m.entries.filterMap fun e => e.2.head?.map ByPrice.mk)⟩,
    by simp [newTransactionsByPriceAndNonce, hloop], ⟨hheap, hnd, fun h hh x hx => ?_⟩, fun a => ?_⟩
  · obtain ⟨tail, hl⟩ := hhead h hh
    rw [hrest, hl, Option.map_some, Option.getD_some] at hx
    exact (hm _ _ hl).2 x (List.mem_cons_of_mem _ hx)
  · cases hl : m.lookup a with
    | none =>
      refine pending_of_forall_ne fun h hh hha => ?_
      obtain ⟨tail, hl'⟩ := hhead h hh
      rw [hha, hl] at hl'
      cases hl'
    | some l =>
      obtain ⟨hne, hsend⟩ := hm a l hl
      obtain ⟨x, tail, rfl⟩ := List.exists_cons_of_ne_nil hne
      have := pending_of_mem (t := ⟨txs', GoHeap.init _⟩) hnd (hmem a x tail hl)
      rw [hsend x List.mem_cons_self] at this
      rw [this]
      simp [hrest, hl]

/-! ### Runs -/

variable (sender) in
/-- The sets a miner reaches from `t` by `Shift` and `Pop`, in any interleaving. -/
inductive Reachable (t : TransactionsByPriceAndNonce Address) :
    TransactionsByPriceAndNonce Address → Prop
  | refl : Reachable t t
  | shift {t₁ t₂ : TransactionsByPriceAndNonce Address} :
      Reachable t t₁ → t₁.shift sender = some t₂ → Reachable t t₂
  | pop {t₁ t₂ : TransactionsByPriceAndNonce Address} :
      Reachable t t₁ → t₁.pop = some t₂ → Reachable t t₂

omit [DecidableEq Address] in
/-- A `Pop` that returns has a head to take off. -/
theorem peek_of_pop {t t' : TransactionsByPriceAndNonce Address} (h : t.pop = some t') :
    ∃ tx, t.peek = some tx := by
  cases hh : t.heads with
  | nil => simp [TransactionsByPriceAndNonce.pop, hh, GoHeap.pop, GoHeap.popLast, GoHeap.down,
      GoHeap.swap, GoHeap.downLoop] at h
  | cons head rest => exact ⟨head.tx, by simp [TransactionsByPriceAndNonce.peek, hh]⟩

/-- A `Shift` that returns has a head to replace. -/
theorem peek_of_shift {t t' : TransactionsByPriceAndNonce Address} (h : t.shift sender = some t') :
    ∃ tx, t.peek = some tx := by
  cases hh : t.heads with
  | nil => simp [TransactionsByPriceAndNonce.shift, hh] at h
  | cons head rest => exact ⟨head.tx, by simp [TransactionsByPriceAndNonce.peek, hh]⟩

/-- **The invariant holds after any interleaving of `Shift` and `Pop`.** -/
theorem reachable_inv {t t₁ : TransactionsByPriceAndNonce Address} (hi : Inv sender t)
    (hr : Reachable sender t t₁) : Inv sender t₁ := by
  induction hr with
  | refl => exact hi
  | shift _ hs ih =>
    obtain ⟨tx, hp⟩ := peek_of_shift hs
    obtain ⟨t', hs', hinv, -⟩ := ih.shift hp
    rw [hs] at hs'
    cases hs'
    exact hinv
  | pop _ hs ih =>
    obtain ⟨tx, hp⟩ := peek_of_pop hs
    obtain ⟨t', hs', hinv, -⟩ := ih.pop hp
    rw [hs] at hs'
    cases hs'
    exact hinv

/-- What the set holds of an account is that account's. -/
theorem Inv.sender_of_mem_pending {t : TransactionsByPriceAndNonce Address} (hi : Inv sender t)
    {a : Address} {x : Transaction} (hx : x ∈ t.pending sender a) : sender x = a := by
  unfold pending at hx
  split at hx
  · rename_i h hfind
    have ha : sender h.tx = a := by simpa using List.find?_some hfind
    rcases List.mem_cons.mp hx with rfl | hx
    · exact ha
    · rw [← ha] at hx ⊢
      exact hi.senders h (List.mem_of_find?_eq_some hfind) x hx
  · cases hx

theorem drain_succ_of_peek_none {t : TransactionsByPriceAndNonce Address} (fuel : Nat)
    (hp : t.peek = none) : t.drain sender (fuel + 1) = some ([], t) := by
  simp [TransactionsByPriceAndNonce.drain, hp]

theorem drain_succ_of_shift {t t' : TransactionsByPriceAndNonce Address} {tx : Transaction}
    (fuel : Nat) (hp : t.peek = some tx) (hs : t.shift sender = some t') :
    t.drain sender (fuel + 1) = (t'.drain sender fuel).map fun r => (tx :: r.1, r.2) := by
  simp only [TransactionsByPriceAndNonce.drain, hp, hs, Option.bind_eq_bind, Option.bind_some]
  cases t'.drain sender fuel <;> rfl

/-- **Draining the set.** From a set with the invariant, holding nothing outside the accounts
`K`, a drain with more rounds than the set holds transactions ends because `Peek` returned
nil, and yields of each account exactly what the set held of it, in its order. By induction
on the rounds: each `Shift` takes the next transaction of the peeked account. -/
theorem drain_spec (K : Finset Address) : ∀ (fuel : Nat) (t : TransactionsByPriceAndNonce Address),
    Inv sender t → (∀ a ∉ K, t.pending sender a = []) →
    ∑ a ∈ K, (t.pending sender a).length < fuel →
    ∃ out t', t.drain sender fuel = some (out, t') ∧ t'.peek = none ∧
      ∀ a, out.filter (fun x => sender x = a) = t.pending sender a := by
  intro fuel
  induction fuel with
  | zero => intro t _ _ hfuel; omega
  | succ fuel ih =>
    intro t hi hK hfuel
    cases hp : t.peek with
    | none =>
      refine ⟨[], t, drain_succ_of_peek_none fuel hp, hp, fun a => ?_⟩
      rw [(peek_eq_none_iff t).mp hp a]
      rfl
    | some tx =>
      obtain ⟨t', hs, hi', hpend⟩ := hi.shift hp
      have hself := (hi.peek hp).1
      -- the peeked account is one of `K`, and the shift takes one transaction off it
      have htxK : sender tx ∈ K := by
        by_contra hn
        rw [hK _ hn] at hself
        cases hself
      have hsum : ∑ a ∈ K, (t'.pending sender a).length + 1 = ∑ a ∈ K, (t.pending sender a).length := by
        rw [Finset.sum_congr rfl fun a _ => congrArg List.length (hpend a),
          ← Finset.add_sum_erase K _ htxK, ← Finset.add_sum_erase K _ htxK, if_pos rfl, hself]
        rw [Finset.sum_congr rfl fun a ha => by rw [if_neg (Finset.ne_of_mem_erase ha)]]
        simp only [List.tail_cons, List.length_cons]
        omega
      have hK' : ∀ a ∉ K, t'.pending sender a = [] := fun a ha => by
        rw [hpend a, if_neg (fun h => ha (by rw [h]; exact htxK)), hK a ha]
      obtain ⟨out, t'', hd, hend, hout⟩ := ih t' hi' hK' (by omega)
      refine ⟨tx :: out, t'', by rw [drain_succ_of_shift fuel hp hs, hd]; rfl, hend, fun a => ?_⟩
      rw [List.filter_cons, hout a, hpend a]
      by_cases ha : sender tx = a
      · subst ha
        simp [hself]
      · simp [ha, Ne.symm ha]

/-! ### The miner's order -/

/-- Two lists with the same transactions of every account are permutations of each other. -/
theorem perm_of_filter_eq {l l' : List Transaction}
    (h : ∀ a, l.filter (fun x => sender x = a) = l'.filter (fun x => sender x = a)) :
    l.Perm l' := by
  rw [List.perm_iff_count]
  intro x
  have hx := congrArg (List.count x) (h (sender x))
  rwa [List.count_filter (by simp), List.count_filter (by simp)] at hx

/-- The transactions of an account among all of a map's lists are that account's list. -/
theorem filter_flatMap_entries : ∀ (E : List (Σ _ : Address, List Transaction)), E.NodupKeys →
    (∀ e ∈ E, ∀ x ∈ e.2, sender x = e.1) → ∀ a,
      (E.flatMap Sigma.snd).filter (fun x => sender x = a) = (E.dlookup a).getD []
  | [], _, _, _ => rfl
  | ⟨k, l⟩ :: E, hnd, hE, a => by
    rw [List.nodupKeys_cons] at hnd
    have hl : ∀ x ∈ l, sender x = k := hE _ List.mem_cons_self
    rw [List.flatMap_cons, List.filter_append,
      filter_flatMap_entries E hnd.2 (fun e he => hE e (List.mem_cons_of_mem _ he)) a]
    by_cases hak : a = k
    · -- the list of `a` itself, and nothing of `a` after it
      subst hak
      rw [List.filter_eq_self.mpr (fun x hx => by simpa using hl x hx),
        List.dlookup_eq_none.mpr hnd.1, List.dlookup_cons_eq]
      simp
    · rw [List.filter_eq_nil_iff.mpr (fun x hx => by simpa [hl x hx] using Ne.symm hak),
        List.dlookup_cons_ne _ _ hak, List.nil_append]

/-- A list of transactions of the accounts `K` is as long as its parts of each account. -/
theorem sum_length_filter (K : Finset Address) : ∀ (l : List Transaction),
    (∀ x ∈ l, sender x ∈ K) → ∑ a ∈ K, (l.filter (fun x => sender x = a)).length = l.length
  | [], _ => by simp
  | x :: l, hl => by
    have ih := sum_length_filter K l (fun y hy => hl y (List.mem_cons_of_mem _ hy))
    have hstep : ∀ a, ((x :: l).filter (fun y => sender y = a)).length =
        (l.filter (fun y => sender y = a)).length + if sender x = a then 1 else 0 := by
      intro a
      by_cases h : sender x = a <;> simp [h]
    rw [Finset.sum_congr rfl fun a _ => hstep a, Finset.sum_add_distrib, Finset.sum_ite_eq,
      if_pos (hl x List.mem_cons_self), ih, List.length_cons]

variable (sender) in
/-- **Price-and-nonce order of the miner's transaction set.** Take a map from each account to a
nonempty list of its transactions in increasing nonce order. `NewTransactionsByPriceAndNonce`
builds a set that holds each account's list. After any interleaving of `Shift` and `Pop`,
`Peek` returns the next transaction of its account, priced at least as high as every
account's current head; `Shift` moves that account on by one transaction, and `Pop` drops
exactly what it has left. Calling `Peek` and `Shift` until `Peek` returns nil yields every
transaction exactly once, and each account's in its order. -/
theorem tx_price_nonce_order (m : AccountTxs Address)
    (hm : ∀ a l, m.lookup a = some l → l ≠ [] ∧ (∀ x ∈ l, sender x = a) ∧
      l.Pairwise (fun x y => x.nonce < y.nonce)) :
    ∃ t, newTransactionsByPriceAndNonce sender m = some t ∧
      (∀ a, t.pending sender a = (m.lookup a).getD []) ∧
      (∀ t₁, Reachable sender t t₁ → ∀ tx, t₁.peek = some tx →
        (t₁.pending sender (sender tx)).head? = some tx ∧ (∀ h ∈ t₁.heads, h.tx.price ≤ tx.price) ∧
        (∃ t₂, t₁.shift sender = some t₂ ∧ ∀ a, t₂.pending sender a =
          if a = sender tx then (t₁.pending sender a).tail else t₁.pending sender a) ∧
        (∃ t₂, t₁.pop = some t₂ ∧ ∀ a, t₂.pending sender a =
          if a = sender tx then [] else t₁.pending sender a)) ∧
      ∃ out t', t.drain sender ((m.entries.flatMap Sigma.snd).length + 1) = some (out, t') ∧
        t'.peek = none ∧ out.Perm (m.entries.flatMap Sigma.snd) ∧
        ∀ a, out.filter (fun x => sender x = a) = (m.lookup a).getD [] ∧
          (out.filter (fun x => sender x = a)).Pairwise (fun x y => x.nonce < y.nonce) := by
  obtain ⟨t, hnew, hi, hpend⟩ := newTransactionsByPriceAndNonce_spec m
    (fun a l hl => ⟨(hm a l hl).1, (hm a l hl).2.1⟩)
  have hE : ∀ e ∈ m.entries, ∀ x ∈ e.2, sender x = e.1 := fun e he =>
    (hm e.1 e.2 (List.mem_dlookup m.nodupKeys he)).2.1
  have hall := filter_flatMap_entries m.entries m.nodupKeys hE
  -- the set holds nothing outside the map's accounts, and as many transactions as the map
  have hK : ∀ a ∉ m.keys.toFinset, t.pending sender a = [] := fun a ha => by
    have hnone : m.entries.dlookup a = none := List.dlookup_eq_none.mpr (mt List.mem_toFinset.mpr ha)
    rw [hpend a]
    exact congrArg (fun o => Option.getD o []) hnone
  have hlen : ∑ a ∈ m.keys.toFinset, (t.pending sender a).length =
      (m.entries.flatMap Sigma.snd).length := by
    rw [← sum_length_filter m.keys.toFinset _ fun x hx => ?_]
    · exact Finset.sum_congr rfl fun a _ => by rw [hpend a, hall a]; rfl
    · obtain ⟨e, he, hxe⟩ := List.mem_flatMap.mp hx
      rw [hE e he x hxe, List.mem_toFinset]
      exact List.mem_keys_of_mem he
  obtain ⟨out, t', hd, hend, hout⟩ :=
    drain_spec m.keys.toFinset ((m.entries.flatMap Sigma.snd).length + 1) t hi hK (by omega)
  refine ⟨t, hnew, hpend, fun t₁ hr tx hp => ?_, out, t', hd, hend, ?_, fun a => ?_⟩
  · have hi₁ := reachable_inv hi hr
    obtain ⟨hself, hmax⟩ := hi₁.peek hp
    obtain ⟨t₂, hs, -, hs'⟩ := hi₁.shift hp
    obtain ⟨t₃, hq, -, hq'⟩ := hi₁.pop hp
    exact ⟨by rw [hself]; rfl, hmax, ⟨t₂, hs, hs'⟩, ⟨t₃, hq, hq'⟩⟩
  · exact perm_of_filter_eq fun a => by rw [hout a, hpend a, hall a]; rfl
  · rw [hout a, hpend a]
    refine ⟨rfl, ?_⟩
    cases hl : m.lookup a with
    | none => exact List.Pairwise.nil
    | some l => exact (hm a l hl).2.2

/-- Two accounts, `1` with two transactions and `2` with one, whose transactions carry their
account in `amount` in place of a signature. -/
def twoAccounts : AccountTxs Nat :=
  ⟨[⟨1, [⟨0, 5, 21000, 1⟩, ⟨1, 1, 21000, 1⟩]⟩, ⟨2, [⟨0, 3, 21000, 2⟩]⟩],
    by simp [List.NodupKeys, List.keys]⟩

/-- Account `1`'s transactions come out of the drain in their order. -/
theorem tx_price_nonce_order_two_accounts :
    ∃ t, newTransactionsByPriceAndNonce (fun tx : Transaction => tx.amount.toNat) twoAccounts =
        some t ∧
      ∃ out t', t.drain (fun tx : Transaction => tx.amount.toNat)
          ((twoAccounts.entries.flatMap Sigma.snd).length + 1) = some (out, t') ∧
        out.filter (fun x => x.amount.toNat = 1) = [⟨0, 5, 21000, 1⟩, ⟨1, 1, 21000, 1⟩] := by
  have hm : ∀ a l, twoAccounts.lookup a = some l → l ≠ [] ∧
      (∀ x ∈ l, (fun tx : Transaction => tx.amount.toNat) x = a) ∧
      l.Pairwise (fun x y => x.nonce < y.nonce) := by
    intro a l hl
    simp only [twoAccounts, AList.lookup, List.dlookup] at hl
    split_ifs at hl with h1 h2
    · subst h1
      cases hl
      decide
    · subst h2
      cases hl
      decide
  obtain ⟨t, hnew, -, -, out, t', hd, -, -, hout⟩ :=
    tx_price_nonce_order (fun tx : Transaction => tx.amount.toNat) twoAccounts hm
  exact ⟨t, hnew, out, t', hd, (hout 1).1⟩

end TransactionsByPriceAndNonce

end Core
