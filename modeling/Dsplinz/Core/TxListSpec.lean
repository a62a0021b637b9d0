import Dsplinz.Core.TxSortedMapSpec
import Dsplinz.Lib.GoBig

/-!
# What a `txList` keeps

A `txList` is a `txSortedMap` with two caps beside it, `costcap` and `gascap`, and a flag
that makes it strict. Three things are said of it, and each rests on one fact.

* **Replacement.** `Add` replaces a transaction of the same nonce only by one priced above
  it and at least `old * (100 + priceBump) / 100`, where `100 + int64(priceBump)` is
  computed in 64 bits. Up to `2 ^ 63 - 101` that is the bump as written
  (`Core.TxList.add_replaces_iff`). From `2 ^ 63 - 100` on, the sum wraps below `100`, and any
  higher price replaces (`Core.TxList.add_ignores_wrapped_bump`).
* **The caps.** Every call either only removes transactions and keeps the caps, or is an
  `Add` that raises the caps to the one transaction it brings, or is a `Filter` that lowers
  them to its limits and keeps only what is within them (`Core.TxList.Op.apply_cases`). So
  the caps bound every transaction of every reachable list
  (`Core.TxList.reachable_capped`), and the short circuit of `Filter` skips nothing.
* **Strictness.** In a strict list, `Filter` and `Remove` keep exactly the transactions below
  the lowest nonce they removed, so a range of nonces stays a range
  (`Core.TxList.filter_strict`, `Core.TxList.remove_strict`).

| part | what it rests on | theorem |
|---|---|---|
| the bump | `int64` arithmetic | `Core.TxList.bumpThreshold_of_lt`, `Core.TxList.bumpThreshold_le_of_wrap` |
| `Add` | the bump, and `Put` | `Core.TxList.add_of_get` |
| the caps | what a call can change | `Core.TxList.Op.apply_cases` |
| strictness | keeping what is below a kept nonce | `Core.TxList.Contiguous.filter_of_downward` |
-/

namespace Core

namespace TxList

open TxSortedMap (Inv)

/-! ### The price bump -/

/-- `100 + int64(priceBump)`, as an integer: the sum wrapped into the `int64` range. -/
theorem toInt_hundred_add (b : UInt64) :
    ((100 : Int64) + b.toInt64).toInt =
      (100 + if b.toNat < 2 ^ 63 then (b.toNat : Int) else b.toNat - 2 ^ 64).bmod (2 ^ 64) := by
  have h100 : (100 : Int64).toInt = 100 := by decide
  rw [Int64.toInt_add, h100, GoBig.toInt_toInt64_eq]

/-- From `2 ^ 63 - 100` on, `100 + int64(priceBump)` wraps below `100`: past `2 ^ 63 - 1` when
`priceBump` is below `2 ^ 63`, and to `priceBump - 2 ^ 64 + 100` when it is not. -/
theorem toInt_hundred_add_lt {b : UInt64} (hb : 2 ^ 63 ≤ b.toNat + 100) :
    ((100 : Int64) + b.toInt64).toInt < 100 := by
  have hlt : b.toNat < 2 ^ 64 := b.toNat_lt
  rw [toInt_hundred_add, Int.bmod_def]
  split <;> split <;> omega

/-- So from there on the bumped price is at most the old one. -/
theorem bumpThreshold_le_of_wrap {b : UInt64} (hb : 2 ^ 63 ≤ b.toNat + 100) {p : Int}
    (hp : 0 ≤ p) : bumpThreshold p b ≤ p := by
  have hfac := toInt_hundred_add_lt hb
  rw [bumpThreshold]
  refine Int.ediv_le_of_le_mul (by norm_num) ?_
  nlinarith

/-! ### `Add` -/

variable {l : TxList} {tx old : Transaction} {priceBump : UInt64}

/-- `Add` of a new nonce inserts the transaction and raises the caps to it. -/
theorem add_of_get_none (hnone : l.txs.get tx.nonce = none) :
    l.add tx priceBump =
      (true, none,
        { l with
          txs := l.txs.put tx
          costcap := if l.costcap < tx.cost then tx.cost else l.costcap
          gascap := if l.gascap < tx.gas then tx.gas else l.gascap }) := by
  simp only [add, hnone]
  rfl

/-- **`Add` over a transaction of the same nonce** replaces it iff the new price is above the
old one and reaches the bumped one, and otherwise changes nothing. -/
theorem add_of_get (hold : l.txs.get tx.nonce = some old) :
    l.add tx priceBump =
      if old.gasPrice < tx.gasPrice ∧ bumpThreshold old.gasPrice priceBump ≤ tx.gasPrice then
        (true, some old,
          { l with
            txs := l.txs.put tx
            costcap := if l.costcap < tx.cost then tx.cost else l.costcap
            gascap := if l.gascap < tx.gas then tx.gas else l.gascap })
      else (false, none, l) := by
  -- the test that aborts is the negation of the one that replaces
  by_cases h : old.gasPrice < tx.gasPrice ∧ bumpThreshold old.gasPrice priceBump ≤ tx.gasPrice
  · have habort : ¬(old.gasPrice ≥ tx.gasPrice ∨ bumpThreshold old.gasPrice priceBump > tx.gasPrice) := by
      omega
    simp only [add, hold, habort, decide_false, if_pos h]
    rfl
  · have habort : old.gasPrice ≥ tx.gasPrice ∨ bumpThreshold old.gasPrice priceBump > tx.gasPrice := by
      omega
    simp only [add, hold, habort, decide_true, if_neg h]
    rfl

/-- Whatever `Add` decides, the list is either left as it is or has the transaction put in
and the caps raised to it. -/
theorem add_cases (l : TxList) (tx : Transaction) (priceBump : UInt64) :
    (l.add tx priceBump).2.2 = l ∨
      (l.add tx priceBump).2.2 =
        { l with
          txs := l.txs.put tx
          costcap := if l.costcap < tx.cost then tx.cost else l.costcap
          gascap := if l.gascap < tx.gas then tx.gas else l.gascap } := by
  cases hget : l.txs.get tx.nonce with
  | none => exact Or.inr (by rw [add_of_get_none hget])
  | some old =>
    rw [add_of_get hget]
    split
    · exact Or.inr rfl
    · exact Or.inl rfl

/-- **`Add` ignores a bump of `2 ^ 63 - 100` or more**: `100 + int64(priceBump)` wraps below
`100`, so a price one above the old one replaces it, where the bump as written asks for more
than `2 ^ 63 / 100` times the old price. -/
theorem add_ignores_wrapped_bump (hold : l.txs.get tx.nonce = some old)
    (hb : 2 ^ 63 ≤ priceBump.toNat + 100) (hpos : 1 ≤ old.gasPrice)
    (hprice : tx.gasPrice = old.gasPrice + 1) :
    (l.add tx priceBump).1 = true ∧ (l.add tx priceBump).2.1 = some old ∧
      tx.gasPrice < old.gasPrice * (100 + priceBump.toNat) / 100 := by
  -- the threshold the code computes is at most the old price
  have hthr := bumpThreshold_le_of_wrap hb (p := old.gasPrice) (by omega)
  rw [add_of_get hold, if_pos ⟨by omega, by omega⟩]
  refine ⟨rfl, rfl, ?_⟩
  -- the threshold as written is far past `old + 1`
  rw [hprice, Int.lt_iff_add_one_le, Int.le_ediv_iff_mul_le (by norm_num)]
  have hbig : (2 : Int) ^ 63 ≤ priceBump.toNat + 100 := by omega
  nlinarith

/-- A bump of `2 ^ 64 - 1`: a replacement one wei above the old price of `100` goes in. -/
theorem add_ignores_wrapped_bump_at_max :
    (((newTxList true).add ⟨0, 100, 21000, 0⟩ 0).2.2.add ⟨0, 101, 21000, 0⟩
        (UInt64.ofNat (2 ^ 64 - 1))).1 = true ∧
      (101 : Int) < 100 * (100 + (UInt64.ofNat (2 ^ 64 - 1)).toNat) / 100 := by
  have hold : ((newTxList true).add ⟨0, 100, 21000, 0⟩ 0).2.2.txs.get
      (⟨0, 101, 21000, 0⟩ : Transaction).nonce = some ⟨0, 100, 21000, 0⟩ := rfl
  have h := add_ignores_wrapped_bump hold
    (show 2 ^ 63 ≤ (UInt64.ofNat (2 ^ 64 - 1)).toNat + 100 by decide) (by decide) rfl
  exact ⟨h.1, h.2.2⟩

/-! ### `Filter` and `Remove` -/

/-- The test of the first pass of `Filter`: a cost or a gas limit above the limits. -/
def overLimits (costLimit : Int) (gasLimit : UInt64) (tx : Transaction) : Bool :=
  decide (tx.cost > costLimit ∨ tx.gas > gasLimit)

/-- **`lowestNonce` is the least nonce** of a nonempty list. -/
theorem lowestNonce_spec {removed : List Transaction} (hne : removed ≠ []) :
    (∃ r ∈ removed, r.nonce = lowestNonce removed) ∧ ∀ r ∈ removed, lowestNonce removed ≤ r.nonce := by
  -- the fold from any start ends at most at the start and every nonce, and at one of them
  have key : ∀ (rs : List Transaction) (init : UInt64),
      (rs.foldl (fun lowest tx => if lowest > tx.nonce then tx.nonce else lowest) init = init ∨
        ∃ r ∈ rs, r.nonce = rs.foldl (fun lowest tx => if lowest > tx.nonce then tx.nonce else lowest) init) ∧
      rs.foldl (fun lowest tx => if lowest > tx.nonce then tx.nonce else lowest) init ≤ init ∧
      ∀ r ∈ rs, rs.foldl (fun lowest tx => if lowest > tx.nonce then tx.nonce else lowest) init ≤ r.nonce := by
    intro rs
    induction rs with
    | nil => exact fun init => ⟨Or.inl rfl, UInt64.le_refl _, nofun⟩
    | cons t rs ih =>
      intro init
      rw [List.foldl_cons]
      obtain ⟨h1, h2, h3⟩ := ih (if init > t.nonce then t.nonce else init)
      -- one step of the fold takes the least of the two
      have hstep : (if init > t.nonce then t.nonce else init) ≤ init ∧
          (if init > t.nonce then t.nonce else init) ≤ t.nonce := by
        split <;> rename_i hlt <;>
          simp only [UInt64.le_iff_toNat_le, UInt64.lt_iff_toNat_lt, gt_iff_lt] at hlt ⊢ <;> omega
      refine ⟨?_, UInt64.le_trans h2 hstep.1, ?_⟩
      · rcases h1 with h1 | ⟨r, hr, heq⟩
        · rw [h1]
          split
          · exact Or.inr ⟨t, List.mem_cons_self, rfl⟩
          · exact Or.inl rfl
        · exact Or.inr ⟨r, List.mem_cons_of_mem t hr, heq⟩
      · intro r hr
        rcases List.mem_cons.mp hr with rfl | hr
        · exact UInt64.le_trans h2 hstep.2
        · exact h3 r hr
  obtain ⟨h1, -, h3⟩ := key removed (UInt64.ofNat (2 ^ 64 - 1))
  refine ⟨?_, h3⟩
  rcases h1 with h1 | h1
  · -- the fold stayed at `MaxUint64`, so every nonce is `MaxUint64`
    obtain ⟨r, hr⟩ := List.exists_mem_of_ne_nil removed hne
    refine ⟨r, hr, UInt64.le_antisymm ?_ (h3 r hr)⟩
    have hmax : (UInt64.ofNat (2 ^ 64 - 1)).toNat = 2 ^ 64 - 1 := rfl
    have := r.nonce.toNat_lt
    rw [lowestNonce, h1, UInt64.le_iff_toNat_le, hmax]
    omega
  · exact h1

/-- A nonce exceeds the lowest of a nonempty list iff it exceeds one of them. -/
theorem lowestNonce_lt_iff {removed : List Transaction} (hne : removed ≠ []) (n : UInt64) :
    lowestNonce removed < n ↔ ∃ r ∈ removed, r.nonce < n := by
  obtain ⟨⟨r₀, hr₀, heq⟩, hle⟩ := lowestNonce_spec hne
  constructor
  · rintro hlt
    exact ⟨r₀, hr₀, heq ▸ hlt⟩
  · rintro ⟨r, hr, hlt⟩
    exact UInt64.lt_of_le_of_lt (hle r hr) hlt

variable {c : Int} {g : UInt64}

/-- `Filter` within the caps returns nothing and changes nothing. -/
theorem filter_of_le (h : l.costcap ≤ c ∧ l.gascap ≤ g) : l.filter c g = ([], [], l) := by
  rw [filter, if_pos h]

/-- **`Filter` past the caps** lowers the caps to the limits and removes the transactions
over a limit; in a strict list, it also removes those of a nonce above one it removed, and
returns them as invalid. -/
theorem filter_of_not_le (hm : Inv l.txs) (h : ¬(l.costcap ≤ c ∧ l.gascap ≤ g)) :
    (l.filter c g).1 = l.txs.items.values.filter (overLimits c g) ∧
      (l.filter c g).2.1 = (l.txs.items.values.filter fun tx => !overLimits c g tx).filter
        (fun tx => l.strict && (l.filter c g).1.any fun r => decide (r.nonce < tx.nonce)) ∧
      TxMap.values (l.filter c g).2.2.txs.items =
        (l.txs.items.values.filter fun tx => !overLimits c g tx).filter
          (fun tx => !(l.strict && (l.filter c g).1.any fun r => decide (r.nonce < tx.nonce))) ∧
      (l.filter c g).2.2 = { l with txs := (l.filter c g).2.2.txs, costcap := c, gascap := g } ∧
      Inv (l.filter c g).2.2.txs := by
  have hover : (fun tx : Transaction => decide (tx.cost > c ∨ tx.gas > g)) = overLimits c g := rfl
  obtain ⟨h1, h2, h3⟩ := TxSortedMap.filter_spec hm (overLimits c g)
  unfold filter
  rw [if_neg h, hover]
  generalize l.txs.filter (overLimits c g) = r at h1 h2 h3
  obtain ⟨removed, txs⟩ := r
  dsimp only at h1 h2 h3 ⊢
  subst h1
  by_cases hs : l.strict = true ∧ (l.txs.items.values.filter (overLimits c g)).length > 0
  · -- a strict list that lost something: the second pass cuts above the lowest nonce
    rw [if_pos hs]
    have hne := List.ne_nil_of_length_pos hs.2
    have hcut : ∀ tx : Transaction, decide (tx.nonce > lowestNonce (l.txs.items.values.filter (overLimits c g))) =
        (l.strict && (l.txs.items.values.filter (overLimits c g)).any fun r => decide (r.nonce < tx.nonce)) := by
      intro tx
      rw [hs.1, Bool.true_and, Bool.eq_iff_iff, decide_eq_true_eq, List.any_eq_true, gt_iff_lt,
        lowestNonce_lt_iff hne]
      simp only [decide_eq_true_eq]
    obtain ⟨h4, h5, h6⟩ := TxSortedMap.filter_spec h3
      (fun tx => decide (tx.nonce > lowestNonce (l.txs.items.values.filter (overLimits c g))))
    generalize txs.filter _ = r at h4 h5 h6
    obtain ⟨invalids, txs'⟩ := r
    dsimp only at h4 h5 ⊢
    refine ⟨rfl, ?_, ?_, rfl, h6⟩
    · rw [h4, h2]
      exact List.filter_congr fun tx _ => hcut tx
    · rw [h5, h2]
      exact List.filter_congr fun tx _ => by rw [hcut tx]
  · -- otherwise nothing is above a removed nonce
    rw [if_neg hs]
    have hcut : ∀ tx : Transaction,
        (l.strict && (l.txs.items.values.filter (overLimits c g)).any fun r => decide (r.nonce < tx.nonce)) = false := by
      intro tx
      by_cases hst : l.strict = true
      · have hlen : (l.txs.items.values.filter (overLimits c g)).length = 0 := by
          by_contra hpos
          exact hs ⟨hst, Nat.pos_of_ne_zero hpos⟩
        have hnil : l.txs.items.values.filter (overLimits c g) = [] :=
          List.eq_nil_of_length_eq_zero hlen
        rw [hnil, List.any_nil, Bool.and_false]
      · rw [Bool.eq_false_iff.mpr hst, Bool.false_and]
    refine ⟨rfl, ?_, ?_, rfl, h3⟩
    · rw [eq_comm, List.filter_eq_nil_iff]
      intro tx _
      rw [hcut tx]
      exact Bool.false_ne_true
    · rw [h2, eq_comm, List.filter_eq_self]
      intro tx _
      rw [hcut tx]
      rfl

/-- `Remove` of a nonce not there returns nothing and changes nothing. -/
theorem remove_of_lookup_none {tx : Transaction} (h : l.txs.items.lookup tx.nonce = none) :
    l.remove tx = (false, [], l) := by
  simp only [remove, TxSortedMap.remove, h]
  rfl

/-- **`Remove` of a nonce that is there** deletes it; in a strict list it also deletes the
transactions above it and returns them. -/
theorem remove_of_lookup_some (hm : Inv l.txs) {tx t : Transaction}
    (h : l.txs.items.lookup tx.nonce = some t) :
    (l.remove tx).1 = true ∧
      (l.remove tx).2.1 = l.txs.items.values.filter
        (fun t => l.strict && decide (tx.nonce < t.nonce)) ∧
      TxMap.values (l.remove tx).2.2.txs.items = l.txs.items.values.filter
        (fun t => decide (t.nonce ≠ tx.nonce) && !(l.strict && decide (tx.nonce < t.nonce))) ∧
      (l.remove tx).2.2 = { l with txs := (l.remove tx).2.2.txs } ∧ Inv (l.remove tx).2.2.txs := by
  obtain ⟨h1, h2, h3⟩ := TxSortedMap.remove_spec hm tx.nonce
  rw [h] at h1
  unfold remove
  dsimp only
  generalize l.txs.remove tx.nonce = r at h1 h2 h3
  obtain ⟨removed, txs⟩ := r
  dsimp only at h1 h2 h3 ⊢
  subst h1
  -- a nonce above the one removed is not it
  have habove : ∀ t : Transaction, (decide (tx.nonce < t.nonce)) = (decide (t.nonce ≠ tx.nonce) && decide (tx.nonce < t.nonce)) := by
    intro t
    by_cases hlt : tx.nonce < t.nonce
    · have hne : t.nonce ≠ tx.nonce := fun heq => by rw [heq] at hlt; exact UInt64.lt_irrefl _ hlt
      simp [hlt, hne]
    · simp [hlt]
  simp only [Option.isSome_some, Bool.not_true, Bool.false_eq_true, if_false]
  cases hs : l.strict with
  | true =>
    -- the second pass removes the nonces above
    obtain ⟨h4, h5, h6⟩ := TxSortedMap.filter_spec h3 (fun t => decide (t.nonce > tx.nonce))
    simp only [if_true]
    refine ⟨trivial, ?_, ?_, trivial, h6⟩
    · rw [h4, h2, List.filter_filter]
      exact List.filter_congr fun t _ => by rw [Bool.true_and, Bool.and_comm, ← habove]
    · rw [h5, h2, List.filter_filter]
      exact List.filter_congr fun t _ => by rw [Bool.true_and, Bool.and_comm]
  | false =>
    simp only [Bool.false_eq_true, if_false]
    refine ⟨trivial, ?_, ?_, trivial, h3⟩
    · rw [eq_comm, List.filter_eq_nil_iff]
      intro t _
      simp
    · rw [h2]
      exact List.filter_congr fun t _ => by simp

/-! ### The caps over runs of calls -/

/-- The caps bound every transaction of the list. -/
def Capped (l : TxList) : Prop :=
  ∀ tx ∈ l.txs.items.values, tx.cost ≤ l.costcap ∧ tx.gas ≤ l.gascap

/-- A call on a `txList`, with its arguments. -/
inductive Op where
  | add (tx : Transaction) (priceBump : UInt64)
  | forward (threshold : UInt64)
  | filter (costLimit : Int) (gasLimit : UInt64)
  | cap (threshold : Int)
  | remove (tx : Transaction)
  | ready (start : UInt64)
  | flatten

/-- The list after a call; `none` where the call panics. -/
def Op.apply : Op → TxList → Option TxList
  | .add tx b, l => some (l.add tx b).2.2
  | .forward t, l => some (l.forward t).2
  | .filter c g, l => some (l.filter c g).2.2
  | .cap k, l => (l.cap k).map Prod.snd
  | .remove tx, l => some (l.remove tx).2.2
  | .ready s, l => some (l.ready s).2
  | .flatten, l => some l.flatten.2

/-- The lists that a run of calls reaches from a new one, strict or not. -/
inductive Reachable : TxList → Prop
  | new (strict : Bool) : Reachable (newTxList strict)
  | step {l l' : TxList} (op : Op) : Reachable l → op.apply l = some l' → Reachable l'

/-- The three things a call can do to the transactions and the caps of a list. -/
inductive Change (l l' : TxList) : Prop
  /-- remove transactions, keeping the caps -/
  | shrink (hsub : TxMap.values l'.txs.items ⊆ l.txs.items.values)
      (hcost : l'.costcap = l.costcap) (hgas : l'.gascap = l.gascap)
  /-- put one transaction in, raising the caps to it -/
  | add (tx : Transaction) (hsub : TxMap.values l'.txs.items ⊆ tx :: l.txs.items.values)
      (hcost : l'.costcap = if l.costcap < tx.cost then tx.cost else l.costcap)
      (hgas : l'.gascap = if l.gascap < tx.gas then tx.gas else l.gascap)
  /-- lower the caps to limits, keeping only the transactions within them -/
  | lower (costLimit : Int) (gasLimit : UInt64)
      (hwithin : ∀ tx ∈ TxMap.values l'.txs.items, overLimits costLimit gasLimit tx = false)
      (hcost : l'.costcap = costLimit) (hgas : l'.gascap = gasLimit)

theorem Change.refl (l : TxList) : Change l l := .shrink (List.Subset.refl _) rfl rfl

/-- **What a call can do**: it keeps the invariant of the map, and changes the list in one of
the three ways of `Change`. -/
theorem Op.apply_cases {op : Op} {l l' : TxList} (hm : Inv l.txs) (h : op.apply l = some l') :
    Inv l'.txs ∧ Change l l' := by
  cases op with
  | add tx b =>
    cases h
    rcases add_cases l tx b with heq | heq <;> rw [heq]
    · exact ⟨hm, .refl l⟩
    · obtain ⟨hval, hinv⟩ := TxSortedMap.put_spec hm tx
      refine ⟨hinv, .add tx ?_ rfl rfl⟩
      rw [hval]
      exact List.cons_subset_cons _ (List.filter_subset_self _)
  | forward t =>
    cases h
    obtain ⟨-, hkeep⟩ := TxSortedMap.forward_filter hm t
    exact ⟨(TxSortedMap.forward_spec hm t).2.2,
      .shrink (List.Subset.trans hkeep.subset (List.filter_subset_self _)) rfl rfl⟩
  | filter c g =>
    cases h
    by_cases hle : l.costcap ≤ c ∧ l.gascap ≤ g
    · rw [filter_of_le hle]
      exact ⟨hm, .refl l⟩
    · -- past the caps: what is left is within the limits
      obtain ⟨-, -, hval, heq, hinv⟩ := filter_of_not_le hm hle
      refine ⟨hinv, .lower c g (fun tx htx => ?_) (by rw [heq]) (by rw [heq])⟩
      rw [hval] at htx
      simpa using (List.mem_filter.mp (List.mem_filter.mp htx).1).2
  | cap k =>
    rcases Int.lt_or_le k 0 with hk | hk
    · -- a negative threshold panics
      rw [Op.apply, TxList.cap, TxSortedMap.cap_neg _ hk] at h
      cases h
    · obtain ⟨n, rfl⟩ := Int.eq_ofNat_of_zero_le hk
      obtain ⟨drops, m', hcap, -, hsorted, hinv⟩ := TxSortedMap.cap_spec hm n
      simp only [Op.apply, TxList.cap, hcap, Option.map_some, Option.some.injEq] at h
      subst h
      -- the transactions kept are the first `n` of the sorted list
      refine ⟨hinv, .shrink (fun tx htx => ?_) rfl rfl⟩
      have hmem : tx ∈ l.txs.items.sorted.take n := hsorted ▸ (TxMap.sorted_perm _).symm.subset htx
      exact (TxMap.sorted_perm _).subset (List.mem_of_mem_take hmem)
  | remove tx =>
    cases h
    cases hl : l.txs.items.lookup tx.nonce with
    | none =>
      rw [remove_of_lookup_none hl]
      exact ⟨hm, .refl l⟩
    | some t =>
      obtain ⟨-, -, hval, heq, hinv⟩ := remove_of_lookup_some hm hl
      refine ⟨hinv, .shrink ?_ (by rw [heq]) (by rw [heq])⟩
      rw [hval]
      exact List.filter_subset_self _
  | ready s =>
    cases h
    obtain ⟨happ, -⟩ := TxSortedMap.ready_run hm s
    refine ⟨(TxSortedMap.ready_spec hm s).2.2, .shrink (fun tx htx => ?_) rfl rfl⟩
    -- what is left is the back of the sorted list
    have hmem : tx ∈ TxMap.sorted (l.txs.ready s).2.items := (TxMap.sorted_perm _).symm.subset htx
    exact (TxMap.sorted_perm _).subset (happ ▸ List.mem_append_right _ hmem)
  | flatten =>
    cases h
    obtain ⟨-, hitems, hinv⟩ := TxSortedMap.flatten_spec hm
    refine ⟨hinv, .shrink ?_ rfl rfl⟩
    show TxMap.values l.txs.flatten.2.items ⊆ _
    rw [hitems]
    exact List.Subset.refl _

/-- A change keeps the caps above every transaction. -/
theorem Change.capped {l l' : TxList} (h : Change l l') (hc : Capped l) : Capped l' := by
  cases h with
  | shrink hsub hcost hgas =>
    intro tx htx
    rw [hcost, hgas]
    exact hc tx (hsub htx)
  | add t hsub hcost hgas =>
    intro tx htx
    rw [hcost, hgas]
    -- the raised caps are above the old ones and above `t`
    have hcost_le : l.costcap ≤ (if l.costcap < t.cost then t.cost else l.costcap) ∧
        t.cost ≤ (if l.costcap < t.cost then t.cost else l.costcap) := by
      split <;> omega
    have hgas_le : l.gascap ≤ (if l.gascap < t.gas then t.gas else l.gascap) ∧
        t.gas ≤ (if l.gascap < t.gas then t.gas else l.gascap) := by
      split <;> rename_i hlt <;>
        simp only [UInt64.le_iff_toNat_le, UInt64.lt_iff_toNat_lt] at hlt ⊢ <;> omega
    rcases List.mem_cons.mp (hsub htx) with rfl | hmem
    · exact ⟨hcost_le.2, hgas_le.2⟩
    · obtain ⟨h1, h2⟩ := hc tx hmem
      exact ⟨le_trans h1 hcost_le.1, UInt64.le_trans h2 hgas_le.1⟩
  | lower c g hwithin hcost hgas =>
    intro tx htx
    rw [hcost, hgas]
    have hw := hwithin tx htx
    simp only [overLimits, decide_eq_false_iff_not, not_or, gt_iff_lt, not_lt,
      UInt64.not_lt] at hw
    exact hw

/-- **The caps bound every transaction of every reachable list**, and the map keeps its
invariant. -/
theorem reachable_capped (h : Reachable l) : Inv l.txs ∧ Capped l := by
  induction h with
  | new strict =>
    refine ⟨TxSortedMap.inv_new, fun tx htx => ?_⟩
    simp [newTxList, newTxSortedMap, TxMap.values] at htx
  | step op _ hstep ih =>
    obtain ⟨hinv, hchange⟩ := Op.apply_cases ih.1 hstep
    exact ⟨hinv, hchange.capped ih.2⟩

/-- **The short circuit of `Filter` skips nothing**: a reachable list within the limits holds
no transaction over them. -/
theorem filter_short_circuit_sound (h : Reachable l) (hle : l.costcap ≤ c ∧ l.gascap ≤ g) :
    ∀ tx ∈ l.txs.items.values, overLimits c g tx = false := by
  intro tx htx
  obtain ⟨h1, h2⟩ := (reachable_capped h).2 tx htx
  simp only [overLimits, decide_eq_false_iff_not, not_or, gt_iff_lt, not_lt, UInt64.not_lt]
  exact ⟨le_trans h1 hle.1, UInt64.le_trans h2 hle.2⟩

theorem filter_short_circuit_sound_one_tx :
    overLimits 1000000 21000 ⟨0, 1, 21000, 0⟩ = false :=
  filter_short_circuit_sound (l := ((newTxList false).add ⟨0, 1, 21000, 0⟩ 0).2.2)
    (.step (.add ⟨0, 1, 21000, 0⟩ 0) (.new false) rfl) ⟨by decide, by decide⟩ _ (by decide)

/-! ### Strict lists -/

/-- The nonces of a list form a range: with two nonces, every nonce between them. -/
def Contiguous (txs : List Transaction) : Prop :=
  ∀ a ∈ txs, ∀ b ∈ txs, ∀ n : UInt64, a.nonce ≤ n → n ≤ b.nonce → ∃ tx ∈ txs, tx.nonce = n

/-- Keeping the transactions of a property closed downwards in the nonce keeps a range. -/
theorem Contiguous.filter_of_downward {txs : List Transaction} (hc : Contiguous txs)
    (p : Transaction → Bool)
    (hp : ∀ a ∈ txs, ∀ b ∈ txs, a.nonce ≤ b.nonce → p b = true → p a = true) :
    Contiguous (txs.filter p) := by
  intro a ha b hb n han hnb
  rw [List.mem_filter] at ha hb
  obtain ⟨tx, htx, rfl⟩ := hc a ha.1 b hb.1 n han hnb
  exact ⟨tx, List.mem_filter.mpr ⟨htx, hp tx htx b hb.1 hnb hb.2⟩, rfl⟩

/-- **`Filter` in a strict list** returns as invalid exactly the transactions within the
limits whose nonce is above one it removed, and keeps a range of nonces a range. -/
theorem filter_strict (hm : Inv l.txs) (hs : l.strict = true) (c : Int) (g : UInt64) :
    (∀ tx, tx ∈ (l.filter c g).2.1 ↔ tx ∈ l.txs.items.values ∧ overLimits c g tx = false ∧
        ∃ r ∈ (l.filter c g).1, r.nonce < tx.nonce) ∧
      (Contiguous l.txs.items.values →
        Contiguous (TxMap.values (l.filter c g).2.2.txs.items)) := by
  by_cases hle : l.costcap ≤ c ∧ l.gascap ≤ g
  · -- the short circuit returns nothing and changes nothing
    rw [filter_of_le hle]
    exact ⟨fun tx => by simp, id⟩
  · obtain ⟨h1, h2, h3, -, -⟩ := filter_of_not_le hm hle
    refine ⟨fun tx => ?_, fun hc => ?_⟩
    · rw [h2, List.mem_filter, List.mem_filter, hs, Bool.true_and, List.any_eq_true,
        Bool.not_eq_true', and_assoc]
      simp only [decide_eq_true_eq]
    · rw [h3, hs, List.filter_filter]
      refine hc.filter_of_downward _ fun a ha b hb hab hpb => ?_
      simp only [Bool.true_and, Bool.and_eq_true, Bool.not_eq_true', List.any_eq_false,
        decide_eq_true_eq] at hpb ⊢
      obtain ⟨hbelow, hb_in⟩ := hpb
      -- nothing removed is below `a`, as nothing is below `b`
      have ha_below : ∀ r ∈ (l.filter c g).1, ¬r.nonce < a.nonce :=
        fun r hr hlt => hbelow r hr (UInt64.lt_of_lt_of_le hlt hab)
      refine ⟨ha_below, ?_⟩
      -- and `a` itself was not removed: it would be below `b`, or be `b`
      cases hover : overLimits c g a with
      | false => rfl
      | true =>
        have har : a ∈ (l.filter c g).1 := by
          rw [h1]
          exact List.mem_filter.mpr ⟨ha, hover⟩
        rcases UInt64.lt_or_eq_of_le hab with hlt | heq
        · exact absurd hlt (hbelow a har)
        · have hab_eq : a = b := by
            have hla := hm.indexed.keyed.lookup_of_mem ha
            rw [heq, hm.indexed.keyed.lookup_of_mem hb] at hla
            exact (Option.some.inj hla).symm
          rw [hab_eq, hb_in] at hover
          exact absurd hover Bool.false_ne_true

/-- **`Remove` in a strict list** returns the transactions above the nonce it deleted, and
keeps a range of nonces a range. -/
theorem remove_strict (hm : Inv l.txs) (hs : l.strict = true) (tx : Transaction) :
    (∀ t, t ∈ (l.remove tx).2.1 ↔
        (l.remove tx).1 = true ∧ t ∈ l.txs.items.values ∧ tx.nonce < t.nonce) ∧
      (Contiguous l.txs.items.values →
        Contiguous (TxMap.values (l.remove tx).2.2.txs.items)) := by
  cases hl : l.txs.items.lookup tx.nonce with
  | none =>
    -- nothing to remove
    rw [remove_of_lookup_none hl]
    exact ⟨fun t => by simp, id⟩
  | some t₀ =>
    obtain ⟨h1, h2, h3, -, -⟩ := remove_of_lookup_some hm hl
    refine ⟨fun t => ?_, fun hc => ?_⟩
    · rw [h2, h1, List.mem_filter, hs]
      simp
    · -- what is left is what is below the nonce
      rw [h3, hs]
      refine hc.filter_of_downward _ fun a _ b _ hab hpb => ?_
      simp only [Bool.true_and, Bool.and_eq_true, decide_eq_true_eq, Bool.not_eq_true',
        decide_eq_false_iff_not, UInt64.not_lt] at hpb ⊢
      simp only [UInt64.le_iff_toNat_le, ne_eq, ← UInt64.toNat_inj] at hab hpb ⊢
      omega

/-- Two transactions of a strict list, nonces `0` and `1`, the first over the gas limit. -/
theorem reachable_strict_pair :
    Reachable (((newTxList true).add ⟨0, 1, 50000, 0⟩ 0).2.2.add ⟨1, 1, 21000, 0⟩ 0).2.2 :=
  .step (.add ⟨1, 1, 21000, 0⟩ 0) (.step (.add ⟨0, 1, 50000, 0⟩ 0) (.new true) rfl) rfl

/-- `Filter` drops nonce `0` for its gas, and returns nonce `1` as invalid. -/
theorem filter_strict_gap :
    ⟨1, 1, 21000, 0⟩ ∈
      ((((newTxList true).add ⟨0, 1, 50000, 0⟩ 0).2.2.add ⟨1, 1, 21000, 0⟩ 0).2.2.filter 1000000 30000).2.1 :=
  ((filter_strict (reachable_capped reachable_strict_pair).1 rfl 1000000 30000).1 _).mpr
    ⟨by decide, by decide, ⟨⟨0, 1, 50000, 0⟩, by decide, by decide⟩⟩

/-- `Remove` of nonce `0` returns nonce `1` as invalid. -/
theorem remove_strict_gap :
    ⟨1, 1, 21000, 0⟩ ∈
      ((((newTxList true).add ⟨0, 1, 50000, 0⟩ 0).2.2.add ⟨1, 1, 21000, 0⟩ 0).2.2.remove ⟨0, 1, 50000, 0⟩).2.1 :=
  ((remove_strict (reachable_capped reachable_strict_pair).1 rfl _).1 _).mpr ⟨by decide, by decide, by decide⟩

end TxList

end Core
