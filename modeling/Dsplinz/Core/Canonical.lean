import Dsplinz.Core.HeaderChain

/-!
# The canonical chain

What the header chain keeps true of its tables. Every stored header is stored under its
own hash and number, and its total difficulty is its parent's plus its own difficulty.
The canonical table is the ancestry of the head: a hash for each number from `0` to the
head's, each the parent of the one above (`Core.Linked`). No stored header has a greater
total difficulty than the head.

The loops of `WriteHeader` are what keeps the canonical table so, and each has its lemma:
`deleteCanonicalFrom_spec` deletes the hashes above the new head, and
`rewriteCanonical_spec` writes the new head's ancestry down to where it meets the old
table, within as many rounds as the head's number. The two loops of `SetHead` are
`deleteHeadersAbove_spec` and `deleteCanonicalRange_spec`.

These hold on the chains `WriteHeader` builds from a genesis header (`Core.Reachable`) as
long as no two of their headers share a hash, no header hashes to zero, and no number is
the greatest `uint64` (`Core.Admissible`), which is what Keccak-256 gives the headers
of a real chain. The code relies on all three: the zero hash is how `ReadCanonicalHash`
says that there is no entry, so the first loop would stop early at a header of hash zero;
two headers of one hash and number would overwrite each other's entries; and the loops
step the numbers as `uint64`s.

* `Core.WellFormed.writeHeader` – one `WriteHeader` keeps the invariant and never fails
  on a header whose parent is stored;
* `Core.Reachable.wellFormed` – every chain a run of `WriteHeader` reaches is well formed;
* `Core.WellFormed.setHead` – rewinding the head keeps the canonical table a chain.
-/

namespace Core

open Common

/-! ### Block numbers -/

theorem toNat_eq_zero_iff {n : UInt64} : n.toNat = 0 ↔ n = 0 := by
  rw [← UInt64.toNat_zero, UInt64.toNat_inj]

theorem number_le_sub_one_iff {j n : UInt64} (hn : n ≠ 0) : j ≤ n - 1 ↔ j < n := by
  have := toNat_eq_zero_iff.not.mpr hn
  rw [UInt64.le_iff_toNat_le, UInt64.lt_iff_toNat_lt, toNat_sub_one hn]
  omega

theorem number_sub_one_lt {n : UInt64} (hn : n ≠ 0) : n - 1 < n :=
  (number_le_sub_one_iff hn).mp (UInt64.le_refl _)

theorem number_add_one_le_iff {j n : UInt64} (hn : n.toNat + 1 < 2 ^ 64) :
    n + 1 ≤ j ↔ n < j := by
  rw [UInt64.le_iff_toNat_le, UInt64.lt_iff_toNat_lt, toNat_add_one hn]
  omega

/-! ### Chains in the canonical table -/

/-- The canonical table is a chain of stored headers from `n` down to `0`: each number up
to `n` has a canonical hash, the header of that hash and number is stored, and its parent
is the canonical hash of the number below. -/
def Linked (headers : Hash × UInt64 → Option Header) (canonical : UInt64 → Option Hash)
    (n : UInt64) : Prop :=
  ∀ j ≤ n, ∃ h H, canonical j = some h ∧ headers (h, j) = some H ∧
    (j ≠ 0 → canonical (j - 1) = some H.parentHash)

namespace Linked

variable {headers headers' : Hash × UInt64 → Option Header}
  {canonical canonical' : UInt64 → Option Hash} {n : UInt64}

theorem le (h : Linked headers canonical n) {m : UInt64} (hm : m ≤ n) :
    Linked headers canonical m :=
  fun j hj => h j (UInt64.le_trans hj hm)

/-- A chain reads the tables only up to its top. -/
theorem congr (h : Linked headers canonical n) (hc : ∀ j ≤ n, canonical' j = canonical j)
    (hh : ∀ k H, k.2 ≤ n → headers k = some H → headers' k = some H) :
    Linked headers' canonical' n := by
  intro j hj
  obtain ⟨hash, H, hcj, hH, hpar⟩ := h j hj
  refine ⟨hash, H, (hc j hj).trans hcj, hh _ _ hj hH, fun hj0 => ?_⟩
  rw [hc _ (UInt64.le_trans (UInt64.le_of_lt (number_sub_one_lt hj0)) hj)]
  exact hpar hj0

/-- A chain to `n - 1` with the header `H` on top, at `n`. -/
theorem cons (h : Linked headers canonical (n - 1)) (hn : n ≠ 0) {hash : Hash} {H : Header}
    (hc : canonical n = some hash) (hH : headers (hash, n) = some H)
    (hpar : canonical (n - 1) = some H.parentHash) : Linked headers canonical n := by
  intro j hj
  rcases UInt64.lt_or_le j n with hlt | hge
  · exact h j ((number_le_sub_one_iff hn).mpr hlt)
  · obtain rfl := UInt64.le_antisymm hj hge
    exact ⟨hash, H, hc, hH, fun _ => hpar⟩

end Linked

/-! ### The loops -/

section Loops

variable {db : ChainDb}

/-- The first loop of a canonical `WriteHeader`, on a canonical table whose numbers from `i`
on are exactly those up to `N`, none of them of the zero hash: it deletes the canonical
hashes from `i` on. -/
theorem deleteCanonicalFrom_spec {N : UInt64} (hN : N.toNat + 1 < 2 ^ 64)
    (hnz : ∀ j h, db.canonical j = some h → h ≠ 0) {i : UInt64}
    (hkeys : ∀ j, i ≤ j → ((db.canonical j).isSome ↔ j ≤ N)) {fuel : Nat}
    (hfuel : N.toNat + 1 - i.toNat < fuel) :
    deleteCanonicalFrom db i fuel =
      .ok { db with canonical := fun j => if i ≤ j then none else db.canonical j } := by
  induction fuel generalizing db i with
  | zero => omega
  | succ fuel ih =>
    rw [deleteCanonicalFrom]
    cases hi : db.canonical i with
    | none =>
      -- `i` is above the table, and so is everything after it
      have hNi : N < i := UInt64.not_le.mp fun h => by
        simpa [hi] using (hkeys i (UInt64.le_refl i)).mpr h
      have hdel : (fun j => if i ≤ j then none else db.canonical j) = db.canonical := by
        funext j
        by_cases hij : i ≤ j
        · rw [if_pos hij, eq_comm, ← Option.not_isSome_iff_eq_none, hkeys j hij, UInt64.not_le]
          exact UInt64.lt_of_lt_of_le hNi hij
        · rw [if_neg hij]
      rw [if_pos ((ChainDb.readCanonicalHash_eq_zero_iff (hnz i)).mpr hi), hdel]
    | some h =>
      have hiN : i ≤ N := (hkeys i (UInt64.le_refl i)).mp (by simp [hi])
      have hiN' := UInt64.le_iff_toNat_le.mp hiN
      have hi1 : i.toNat + 1 < 2 ^ 64 := by omega
      rw [if_neg (by rw [ChainDb.readCanonicalHash_eq_zero_iff (hnz i), hi]; simp)]
      have hnz' : ∀ j h', (db.deleteCanonicalHash i).canonical j = some h' → h' ≠ 0 := by
        intro j h' hj
        simp only [ChainDb.canonical_deleteCanonicalHash] at hj
        rw [Function.update_apply] at hj
        split_ifs at hj
        exact hnz j h' hj
      have hkeys' : ∀ j, i + 1 ≤ j →
          (((db.deleteCanonicalHash i).canonical j).isSome ↔ j ≤ N) := by
        intro j hj
        have hij : i < j := (number_add_one_le_iff hi1).mp hj
        simp only [ChainDb.canonical_deleteCanonicalHash]
        rw [Function.update_of_ne (UInt64.ne_of_lt hij).symm]
        exact hkeys j (UInt64.le_of_lt hij)
      have hrec := ih hnz' hkeys' (by rw [toNat_add_one hi1]; omega)
      rw [hrec]
      congr 2
      funext j
      simp only [ChainDb.canonical_deleteCanonicalHash, Function.update_apply,
        number_add_one_le_iff hi1]
      by_cases hji : j = i
      · simp [hji]
      · have : i < j ↔ i ≤ j := ⟨UInt64.le_of_lt, fun h => UInt64.lt_of_le_of_ne h (Ne.symm hji)⟩
        simp [hji, this]

/-- The second loop of a canonical `WriteHeader`, from a stored header `H` at `n`, on a
database whose headers are stored at their numbers with their parents, whose headers at `0`
are canonical, and whose canonical entries up to `n` each head a chain: within `n + 1`
rounds it writes the ancestry of `H` into the canonical table, which then holds a chain
from `H` down and is unchanged above `n`. -/
theorem rewriteCanonical_spec
    (hkeyed : ∀ h n H, db.headers (h, n) = some H → H.number = n)
    (hnz : ∀ h n H, db.headers (h, n) = some H → h ≠ 0)
    (hpar : ∀ h n H, db.headers (h, n) = some H → n ≠ 0 →
      ∃ P, db.headers (H.parentHash, n - 1) = some P)
    (hgen : ∀ h H, db.headers (h, 0) = some H → db.canonical 0 = some h) {n : UInt64}
    (hlinked : ∀ j ≤ n, (db.canonical j).isSome → Linked db.headers db.canonical j)
    {h : Hash} {H : Header} (hH : db.headers (h, n) = some H) {fuel : Nat}
    (hfuel : n.toNat < fuel) :
    ∃ c, rewriteCanonical db h n (some H) fuel = .ok { db with canonical := c } ∧
      c n = some h ∧ (∀ j, n < j → c j = db.canonical j) ∧ Linked db.headers c n := by
  induction fuel generalizing db n h H with
  | zero => omega
  | succ fuel ih =>
    rw [rewriteCanonical]
    by_cases hc : db.canonical n = some h
    · -- `H` is canonical already: the walk stops
      rw [if_neg (not_not.mpr ((ChainDb.readCanonicalHash_eq_iff (hnz h n H hH)).mpr hc))]
      exact ⟨db.canonical, rfl, hc, fun _ _ => rfl,
        hlinked n (UInt64.le_refl n) (by simp [hc])⟩
    · rw [if_pos (fun heq => hc ((ChainDb.readCanonicalHash_eq_iff (hnz h n H hH)).mp heq))]
      -- only a header above the genesis can be missing from the table
      have hn : n ≠ 0 := by
        rintro rfl
        exact hc (hgen h H hH)
      obtain ⟨P, hP⟩ := hpar h n H hH hn
      have hnum : H.number = n := hkeyed h n H hH
      let db₁ := db.writeCanonicalHash h n
      have hbelow : ∀ j, j ≤ n - 1 → db₁.canonical j = db.canonical j := fun j hj => by
        simp only [db₁, ChainDb.canonical_writeCanonicalHash]
        exact Function.update_of_ne (UInt64.ne_of_lt ((number_le_sub_one_iff hn).mp hj)) _ _
      have hgen₁ : ∀ h' H', db₁.headers (h', 0) = some H' → db₁.canonical 0 = some h' :=
        fun h' H' hH' => (hbelow 0 UInt64.zero_le).trans (hgen h' H' hH')
      have hlinked₁ : ∀ j ≤ n - 1, (db₁.canonical j).isSome → Linked db₁.headers db₁.canonical j := by
        intro j hj hsome
        rw [hbelow j hj] at hsome
        exact (hlinked j (UInt64.le_trans hj (UInt64.le_of_lt (number_sub_one_lt hn))) hsome).congr
          (fun k hk => hbelow k (UInt64.le_trans hk hj)) (fun _ _ _ hk => hk)
      have hfuel₁ : (n - 1).toNat < fuel := by
        have := toNat_eq_zero_iff.not.mpr hn
        rw [toNat_sub_one hn]
        omega
      obtain ⟨c, hrun, hcn, habove, hlink⟩ :=
        @ih db₁ hkeyed hnz hpar hgen₁ (n - 1) hlinked₁ H.parentHash P hP hfuel₁
      refine ⟨c, ?_, ?_, ?_, ?_⟩
      · rw [hnum]
        show rewriteCanonical db₁ H.parentHash (n - 1) (db₁.readHeader H.parentHash (n - 1)) fuel = _
        rw [show db₁.readHeader H.parentHash (n - 1) = some P from hP]
        exact hrun
      · rw [habove n (number_sub_one_lt hn)]
        simp [db₁]
      · intro j hj
        rw [habove j (UInt64.lt_trans (number_sub_one_lt hn) hj)]
        simp only [db₁, ChainDb.canonical_writeCanonicalHash]
        exact Function.update_of_ne (UInt64.ne_of_lt hj).symm _ _
      · exact hlink.cons hn (by rw [habove n (number_sub_one_lt hn)]; simp [db₁]) hH hcn

variable (hashOf : Header → Hash)

/-- The first loop of `SetHead`, from a header `H` at the top of a canonical chain up to
`n`: within `n - head + 1` rounds it deletes the chain's headers above `head` and stops at
the chain's header at `head`, leaving the canonical table and the headers up to `head`. -/
theorem deleteHeadersAbove_spec
    (hkeyed : ∀ h n H, db.headers (h, n) = some H → hashOf H = h ∧ H.number = n)
    {n : UInt64} (hlinked : Linked db.headers db.canonical n) {H : Header}
    (hc : db.canonical n = some (hashOf H)) (hH : db.headers (hashOf H, n) = some H)
    {head : UInt64} (hhead : head ≤ n) {fuel : Nat} (hfuel : n.toNat - head.toNat < fuel) :
    ∃ db' H₀, deleteHeadersAbove hashOf head db (some H) fuel = .ok (db', some H₀) ∧
      db'.canonical = db.canonical ∧ (∀ k, k.2 ≤ head → db'.headers k = db.headers k) ∧
      db.canonical head = some (hashOf H₀) ∧ db.headers (hashOf H₀, head) = some H₀ := by
  induction fuel generalizing db n H with
  | zero => omega
  | succ fuel ih =>
    rw [deleteHeadersAbove, (hkeyed _ _ _ hH).2]
    by_cases hlt : head < n
    · rw [if_pos hlt]
      have hn : n ≠ 0 := by
        rintro rfl
        exact UInt64.not_lt.mpr UInt64.zero_le hlt
      -- the parent of `H` is the chain's header at `n - 1`
      obtain ⟨h', H', hc', hH', hpar⟩ := hlinked n (UInt64.le_refl n)
      obtain rfl : h' = hashOf H := Option.some.inj (hc'.symm.trans hc)
      obtain rfl : H' = H := Option.some.inj (hH'.symm.trans hH)
      obtain ⟨h'', P, hc'', hP, -⟩ := hlinked (n - 1) (UInt64.le_of_lt (number_sub_one_lt hn))
      obtain rfl : h'' = H'.parentHash := Option.some.inj (hc''.symm.trans (hpar hn))
      obtain ⟨hPhash, -⟩ := hkeyed _ _ _ hP
      let db₁ := (db.deleteHeader (hashOf H') n).deleteTd (hashOf H') n
      have hkeep : ∀ k, k.2 ≠ n → db₁.headers k = db.headers k := fun k hk => by
        simp only [db₁, ChainDb.headers_deleteTd, ChainDb.headers_deleteHeader]
        exact Function.update_of_ne (fun h => hk (by rw [h])) _ _
      have hkeyed₁ : ∀ h n H, db₁.headers (h, n) = some H → hashOf H = h ∧ H.number = n := by
        intro h k G hG
        simp only [db₁, ChainDb.headers_deleteTd, ChainDb.headers_deleteHeader,
          Function.update_apply] at hG
        split_ifs at hG
        exact hkeyed h k G hG
      have hbelow : ∀ k : Hash × UInt64, k.2 ≤ n - 1 → k.2 ≠ n := fun k hk h =>
        UInt64.lt_irrefl n (h ▸ (number_le_sub_one_iff hn).mp hk)
      have hP₁ : db₁.headers (hashOf P, n - 1) = some P := by
        rw [hkeep _ (hbelow (_, _) (UInt64.le_refl _)), hPhash]
        exact hP
      have hlinked₁ : Linked db₁.headers db₁.canonical (n - 1) :=
        (hlinked.le (UInt64.le_of_lt (number_sub_one_lt hn))).congr (fun _ _ => rfl)
          (fun k G hk hG => (hkeep k (hbelow k hk)).trans hG)
      have hfuel₁ : (n - 1).toNat - head.toNat < fuel := by
        have := UInt64.lt_iff_toNat_lt.mp hlt
        rw [toNat_sub_one hn]
        omega
      obtain ⟨db', H₀, hrun, hcan, hhead', hc₀, hH₀⟩ :=
        @ih db₁ hkeyed₁ (n - 1) hlinked₁ P (by rw [hPhash]; exact hpar hn) hP₁
          ((number_le_sub_one_iff hn).mpr hlt) hfuel₁
      have hle : ∀ k : Hash × UInt64, k.2 ≤ head → k.2 ≠ n := fun k hk h =>
        UInt64.lt_irrefl n (UInt64.lt_of_le_of_lt (h ▸ hk) hlt)
      refine ⟨db', H₀, ?_, hcan, fun k hk => (hhead' k hk).trans (hkeep k (hle k hk)), hc₀, ?_⟩
      · show deleteHeadersAbove hashOf head db₁ (db₁.readHeader H'.parentHash (n - 1)) fuel = _
        rw [show db₁.readHeader H'.parentHash (n - 1) = some P by
          rw [← hPhash]
          exact hP₁]
        exact hrun
      · rw [← hkeep _ (hle (_, head) (UInt64.le_refl _))]
        exact hH₀
    · -- `H` is at `head`: the loop stops there
      obtain rfl := UInt64.le_antisymm hhead (UInt64.not_lt.mp hlt)
      rw [if_neg hlt]
      exact ⟨db, H, rfl, rfl, fun _ _ => rfl, hc, hH⟩

/-- The second loop of `SetHead` deletes the canonical hashes above `head` up to `i`. -/
theorem deleteCanonicalRange_spec (head : UInt64) (db : ChainDb) (i : UInt64) :
    deleteCanonicalRange head db i =
      { db with canonical := fun j => if head < j ∧ j ≤ i then none else db.canonical j } := by
  fun_induction deleteCanonicalRange head db i with
  | case1 db i hlt ih =>
    rw [ih]
    simp only [ChainDb.headers_deleteCanonicalHash, ChainDb.tds_deleteCanonicalHash]
    have hi : i ≠ 0 := by
      rintro rfl
      exact UInt64.not_lt.mpr UInt64.zero_le hlt
    congr 2
    funext j
    simp only [ChainDb.canonical_deleteCanonicalHash, Function.update_apply,
      number_le_sub_one_iff hi]
    by_cases hji : j = i
    · simp [hji, hlt]
    · have : j < i ↔ j ≤ i := ⟨UInt64.le_of_lt, fun h => UInt64.lt_of_le_of_ne h hji⟩
      simp [hji, this]
  | case2 db i hle =>
    have hdel : (fun j => if head < j ∧ j ≤ i then none else db.canonical j) = db.canonical := by
      funext j
      rw [if_neg]
      rintro ⟨hj, hji⟩
      exact hle (UInt64.lt_of_lt_of_le hj hji)
    rw [hdel]

end Loops

/-! ### The tables -/

/-- The headers a run writes: no two share a hash, none hashes to zero, and no number is
the greatest `uint64`. -/
structure Admissible (hashOf : Header → Hash) (S : Set Header) : Prop where
  injOn : Set.InjOn hashOf S
  hash_ne : ∀ H ∈ S, hashOf H ≠ 0
  number_lt : ∀ H ∈ S, H.number.toNat + 1 < 2 ^ 64

/-- What the header and total-difficulty tables keep: each header is one of `S`, stored
under its hash and number, with a total difficulty that is its parent's plus its own
difficulty; the headers at `0` are of the genesis hash `g`. -/
structure Tables (hashOf : Header → Hash) (S : Set Header) (g : Hash)
    (headers : Hash × UInt64 → Option Header) (tds : Hash × UInt64 → Option Nat) : Prop where
  keyed : ∀ h n H, headers (h, n) = some H → hashOf H = h ∧ H.number = n
  mem : ∀ k H, headers k = some H → H ∈ S
  td_isSome : ∀ k, (tds k).isSome = (headers k).isSome
  tdSum : ∀ h n H, headers (h, n) = some H → n ≠ 0 →
    ∃ ptd, tds (H.parentHash, n - 1) = some ptd ∧ tds (h, n) = some (H.difficulty + ptd)
  genesis : ∀ h H, headers (h, 0) = some H → h = g

namespace Tables

variable {S : Set Header} {g : Hash} {headers : Hash × UInt64 → Option Header}
  {tds : Hash × UInt64 → Option Nat}

section

variable {hashOf} (ht : Tables hashOf S g headers tds)
include ht

theorem parent {h : Hash} {n : UInt64} {H : Header} (hH : headers (h, n) = some H)
    (hn : n ≠ 0) : ∃ P, headers (H.parentHash, n - 1) = some P := by
  obtain ⟨ptd, hptd, -⟩ := ht.tdSum h n H hH hn
  have hsome := ht.td_isSome (H.parentHash, n - 1)
  rw [hptd, Option.isSome_some, eq_comm, Option.isSome_iff_exists] at hsome
  exact hsome

theorem stored_of_td {k : Hash × UInt64} {t : Nat} (hk : tds k = some t) :
    ∃ H, headers k = some H := by
  have hsome := ht.td_isSome k
  rw [hk, Option.isSome_some, eq_comm, Option.isSome_iff_exists] at hsome
  exact hsome

theorem td_of_stored {k : Hash × UInt64} {H : Header} (hk : headers k = some H) :
    ∃ t, tds k = some t := by
  have hsome := ht.td_isSome k
  rw [hk, Option.isSome_some, Option.isSome_iff_exists] at hsome
  exact hsome

variable (hS : Admissible hashOf S)
include hS

theorem hash_ne {h : Hash} {n : UInt64} {H : Header} (hH : headers (h, n) = some H) : h ≠ 0 :=
  (ht.keyed h n H hH).1 ▸ hS.hash_ne H (ht.mem _ H hH)

theorem number_lt {h : Hash} {n : UInt64} {H : Header} (hH : headers (h, n) = some H) :
    n.toNat + 1 < 2 ^ 64 :=
  (ht.keyed h n H hH).2 ▸ hS.number_lt H (ht.mem _ H hH)

/-- A header of `S` is the only one stored under its hash. -/
theorem eq_of_hash {X H : Header} (hX : X ∈ S) {n : UInt64}
    (hH : headers (hashOf X, n) = some H) : H = X :=
  hS.injOn (ht.mem _ H hH) hX (ht.keyed _ n H hH).1

/-- A header whose parent's total difficulty is stored is not at number `0`: its parent
would be at the greatest `uint64`. -/
theorem number_ne_zero {X : Header} {ptd : Nat}
    (hp : tds (X.parentHash, X.number - 1) = some ptd) : X.number ≠ 0 := by
  intro h0
  obtain ⟨P, hP⟩ := ht.stored_of_td hp
  have hlt := ht.number_lt hS hP
  rw [h0] at hlt
  exact absurd hlt (by decide)

/-! #### The two writes of `WriteHeader` -/

variable {X : Header} (hX : X ∈ S) {ptd : Nat}
  (hp : tds (X.parentHash, X.number - 1) = some ptd)
include hX

/-- Storing a header of `S` keeps every stored header. -/
theorem store_headers {k : Hash × UInt64} {H : Header} (hk : headers k = some H) :
    Function.update headers (hashOf X, X.number) (some X) k = some H := by
  rw [Function.update_apply]
  split_ifs with hkey
  · subst hkey
    rw [ht.eq_of_hash hS hX hk]
  · exact hk

include hp

/-- Storing a header with its parent's total difficulty plus its own keeps every stored
total difficulty: one stored at the header's key is that same sum. -/
theorem store_tds {k : Hash × UInt64} {t : Nat} (hk : tds k = some t) :
    Function.update tds (hashOf X, X.number) (some (X.difficulty + ptd)) k = some t := by
  rw [Function.update_apply]
  split_ifs with hkey
  · subst hkey
    obtain ⟨H, hH⟩ := ht.stored_of_td hk
    obtain rfl := ht.eq_of_hash hS hX hH
    obtain ⟨ptd', hptd', htd⟩ := ht.tdSum _ _ H hH (ht.number_ne_zero hS hp)
    rw [hp, Option.some.injEq] at hptd'
    rw [hk] at htd
    rw [hptd']
    exact htd.symm
  · exact hk

/-- The two writes of `WriteHeader` keep the tables. -/
theorem store :
    Tables hashOf S g (Function.update headers (hashOf X, X.number) (some X))
      (Function.update tds (hashOf X, X.number) (some (X.difficulty + ptd))) := by
  have hm := ht.number_ne_zero hS hp
  constructor
  · intro h n H hH
    rw [Function.update_apply] at hH
    split_ifs at hH with hkey
    · obtain rfl := Option.some.inj hH
      simp only [Prod.mk.injEq] at hkey
      exact ⟨hkey.1.symm, hkey.2.symm⟩
    · exact ht.keyed h n H hH
  · intro k H hH
    rw [Function.update_apply] at hH
    split_ifs at hH
    · exact (Option.some.inj hH) ▸ hX
    · exact ht.mem k H hH
  · intro k
    simp only [Function.update_apply]
    split_ifs
    · rfl
    · exact ht.td_isSome k
  · intro h n H hH hn
    rw [Function.update_apply] at hH
    split_ifs at hH with hkey
    · obtain rfl := Option.some.inj hH
      simp only [Prod.mk.injEq] at hkey
      obtain ⟨rfl, rfl⟩ := hkey
      refine ⟨ptd, ?_, by simp⟩
      rw [Function.update_of_ne (fun h => by
        simp only [Prod.mk.injEq] at h
        exact UInt64.lt_irrefl _ (h.2 ▸ number_sub_one_lt hm))]
      exact hp
    · obtain ⟨ptd', hptd', htd⟩ := ht.tdSum h n H hH hn
      exact ⟨ptd', ht.store_tds hS hX hp hptd', ht.store_tds hS hX hp htd⟩
  · intro h H hH
    rw [Function.update_apply] at hH
    split_ifs at hH with hkey
    · simp only [Prod.mk.injEq] at hkey
      exact absurd hkey.2.symm hm
    · exact ht.genesis h H hH

end

end Tables

/-- A total difficulty written next to others no greater than `B` is itself no greater. -/
theorem update_td_le {tds : Hash × UInt64 → Option Nat} {B e : Nat} {key : Hash × UInt64}
    (hle : ∀ k t, tds k = some t → t ≤ B) (he : e ≤ B) :
    ∀ k t, Function.update tds key (some e) k = some t → t ≤ B := by
  intro k t hk
  rw [Function.update_apply] at hk
  split_ifs at hk
  · exact Option.some.inj hk ▸ he
  · exact hle k t hk

/-! ### Well-formed header chains -/

/-- The total difficulty of the head: `localTd` in `WriteHeader`. -/
def HeaderChain.currentTd (hc : HeaderChain) : Option Nat :=
  hc.getTd hc.currentHeaderHash hc.currentHeader.number

/-- The invariant of the header chain: the tables are kept; the canonical numbers are
those up to the head's, and they form a chain topped by the head; and the head has the
greatest total difficulty. -/
structure WellFormed (hashOf : Header → Hash) (S : Set Header) (hc : HeaderChain) : Prop where
  tables : Tables hashOf S (hashOf hc.genesisHeader) hc.chainDb.headers hc.chainDb.tds
  canonical_isSome : ∀ i, (hc.chainDb.canonical i).isSome ↔ i ≤ hc.currentHeader.number
  current : hc.chainDb.headers (hc.currentHeaderHash, hc.currentHeader.number) =
    some hc.currentHeader
  canonical_current : hc.chainDb.canonical hc.currentHeader.number = some hc.currentHeaderHash
  linked : Linked hc.chainDb.headers hc.chainDb.canonical hc.currentHeader.number
  tdMax : ∃ t, hc.currentTd = some t ∧ ∀ k t', hc.chainDb.tds k = some t' → t' ≤ t

/-! ### The canonical chain, as the code reads it -/

/-- The canonical numbers are exactly those up to `N`, and `ReadCanonicalHash(N)` is the
head's hash. -/
def CanonicalUpTo (hc : HeaderChain) (N : UInt64) : Prop :=
  (∀ i, (hc.chainDb.canonical i).isSome ↔ i ≤ N) ∧
    hc.chainDb.readCanonicalHash N = hc.currentHeaderHash

/-- The header stored at the canonical hash of each number from `1` to `N` has that number,
and its parent is the canonical hash of the number below. -/
def ParentLinked (hc : HeaderChain) (N : UInt64) : Prop :=
  ∀ n, 0 < n → n ≤ N → ∃ H, hc.getHeader (hc.chainDb.readCanonicalHash n) n = some H ∧
    H.number = n ∧ H.parentHash = hc.chainDb.readCanonicalHash (n - 1)

/-- The stored total difficulty of every header above `0` is its parent's plus its own
difficulty. -/
def TdSums (hc : HeaderChain) : Prop :=
  ∀ h n H, hc.getHeader h n = some H → n ≠ 0 →
    ∃ ptd, hc.getTd H.parentHash (n - 1) = some ptd ∧ hc.getTd h n = some (H.difficulty + ptd)

/-- The head's total difficulty is at least that of every stored header. -/
def TdMax (hc : HeaderChain) : Prop :=
  ∃ t, hc.currentTd = some t ∧ ∀ h n t', hc.getTd h n = some t' → t' ≤ t

/-- A chain in the canonical table, of headers stored at their numbers, is what the code
reads as parent-linked. -/
theorem Linked.parentLinked {hc : HeaderChain} {N : UInt64}
    (hl : Linked hc.chainDb.headers hc.chainDb.canonical N)
    (hkeyed : ∀ h n H, n ≤ N → hc.chainDb.headers (h, n) = some H → H.number = n) :
    ParentLinked hc N := by
  intro n hn hnN
  obtain ⟨h, H, hcn, hH, hpar⟩ := hl n hnN
  have hn0 : n ≠ 0 := fun h0 => UInt64.lt_irrefl 0 (h0 ▸ hn)
  refine ⟨H, ?_, hkeyed h n H hnN hH, ?_⟩
  · simp [HeaderChain.getHeader, ChainDb.readHeader, ChainDb.readCanonicalHash, hcn, hH]
  · simp [ChainDb.readCanonicalHash, hpar hn0]

/-- When `WriteHeader` makes a header the head, the head's total difficulty is the
header's. -/
theorem writeHeader_canonStatTy (hashOf : Header → Hash) {hc hc' : HeaderChain} {X : Header}
    {coin : Bool} (h : hc.writeHeader hashOf X coin = .ok (.canonStatTy, hc')) :
    hc'.currentTd = hc'.getTd (hashOf X) X.number := by
  simp only [HeaderChain.writeHeader] at h
  split at h
  · cases h
  · split at h
    · cases h
    · split_ifs at h
      · simp only [bind, Except.bind] at h
        split at h
        · cases h
        · split at h
          · cases h
          · cases h
            rfl
      · cases h

namespace WellFormed

variable {hashOf : Header → Hash} {S : Set Header}

/-- The chain `NewHeaderChain` opens over a committed genesis header is well formed. -/
theorem ofGenesis {g : Header} (hg : g ∈ S) (hg0 : g.number = 0) :
    WellFormed hashOf S (HeaderChain.ofGenesis hashOf g) := by
  have hheaders : ∀ h n H, (HeaderChain.ofGenesis hashOf g).chainDb.headers (h, n) = some H →
      H = g ∧ h = hashOf g ∧ n = 0 := by
    intro h n H hH
    simp only [HeaderChain.ofGenesis, ChainDb.headers_writeCanonicalHash,
      ChainDb.headers_writeHeader, ChainDb.headers_writeTd, ChainDb.empty,
      Function.update_apply] at hH
    split_ifs at hH with hkey
    simp only [Prod.mk.injEq] at hkey
    exact ⟨(Option.some.inj hH).symm, hkey.1, hkey.2.trans hg0⟩
  refine ⟨⟨?_, ?_, ?_, ?_, ?_⟩, ?_, ?_, ?_, ?_, ?_⟩
  · intro h n H hH
    obtain ⟨rfl, rfl, rfl⟩ := hheaders h n H hH
    exact ⟨rfl, hg0⟩
  · intro k H hH
    obtain ⟨rfl, -⟩ := hheaders k.1 k.2 H hH
    exact hg
  · intro k
    simp only [HeaderChain.ofGenesis, ChainDb.tds_writeCanonicalHash, ChainDb.tds_writeHeader,
      ChainDb.tds_writeTd, ChainDb.headers_writeCanonicalHash, ChainDb.headers_writeHeader,
      ChainDb.headers_writeTd, ChainDb.empty, Function.update_apply]
    split_ifs <;> rfl
  · intro h n H hH hn
    exact absurd (hheaders h n H hH).2.2 hn
  · intro h H hH
    exact (hheaders h 0 H hH).2.1
  · intro i
    simp [HeaderChain.ofGenesis, ChainDb.empty, Function.update_apply, hg0]
  · simp [HeaderChain.ofGenesis]
  · simp [HeaderChain.ofGenesis]
  · intro j hj
    obtain rfl : j = 0 := UInt64.le_antisymm (hg0 ▸ hj) UInt64.zero_le
    refine ⟨hashOf g, g, by simp [HeaderChain.ofGenesis, hg0], by
      simp [HeaderChain.ofGenesis, hg0], fun h => absurd rfl h⟩
  · refine ⟨g.difficulty, by simp [HeaderChain.currentTd, HeaderChain.getTd, ChainDb.readTd,
      HeaderChain.ofGenesis], ?_⟩
    intro k t hk
    simp only [HeaderChain.ofGenesis, ChainDb.tds_writeCanonicalHash, ChainDb.tds_writeHeader,
      ChainDb.tds_writeTd, ChainDb.empty, Function.update_apply] at hk
    split_ifs at hk
    exact (Option.some.inj hk).ge

variable {hc : HeaderChain} (hw : WellFormed hashOf S hc)
include hw

/-- The genesis hash is canonical at `0`. -/
theorem canonical_zero : hc.chainDb.canonical 0 = some (hashOf hc.genesisHeader) := by
  obtain ⟨h, H, hc0, hH, -⟩ := hw.linked 0 UInt64.zero_le
  rw [hc0, hw.tables.genesis h H hH]

theorem canonical_ne_zero (hS : Admissible hashOf S) {j : UInt64} {h : Hash}
    (hj : hc.chainDb.canonical j = some h) : h ≠ 0 := by
  have hjN := (hw.canonical_isSome j).mp (by simp [hj])
  obtain ⟨h', H, hc', hH, -⟩ := hw.linked j hjN
  rw [hj, Option.some.injEq] at hc'
  exact hc' ▸ hw.tables.hash_ne hS hH

section Store

variable (hS : Admissible hashOf S) {X : Header} (hX : X ∈ S) {ptd : Nat}
  (hp : hc.chainDb.tds (X.parentHash, X.number - 1) = some ptd)
include hS hX hp

/-- A header that loses to the head is stored on a side chain. -/
theorem side {localTd : Nat} (hlocal : hc.currentTd = some localTd)
    (hle : X.difficulty + ptd ≤ localTd) :
    WellFormed hashOf S
      { hc with
        chainDb := (hc.chainDb.writeTd (hashOf X) X.number
          (X.difficulty + ptd)).writeHeader hashOf X } := by
  have ht := hw.tables
  obtain ⟨t, ht', hmax⟩ := hw.tdMax
  obtain rfl : t = localTd := Option.some.inj (ht'.symm.trans hlocal)
  refine ⟨ht.store hS hX hp, hw.canonical_isSome, ht.store_headers hS hX hw.current,
    hw.canonical_current, hw.linked.congr (fun _ _ => rfl)
      (fun _ _ _ hk => ht.store_headers hS hX hk), t, ?_, ?_⟩
  · exact ht.store_tds hS hX hp ht'
  · exact update_td_le hmax hle

/-- A header that beats the head becomes the head, once the canonical table `c` holds its
ancestry below it and nothing above it. -/
theorem reroute {localTd : Nat} (hlocal : hc.currentTd = some localTd)
    (hge : localTd ≤ X.difficulty + ptd) {c : UInt64 → Option Hash}
    (hlink : Linked (Function.update hc.chainDb.headers (hashOf X, X.number) (some X)) c
      (X.number - 1))
    (hpar : c (X.number - 1) = some X.parentHash) (hnone : ∀ j, X.number < j → c j = none) :
    WellFormed hashOf S
      { hc with
        chainDb := ({ (hc.chainDb.writeTd (hashOf X) X.number (X.difficulty + ptd)).writeHeader
          hashOf X with canonical := c }).writeCanonicalHash (hashOf X) X.number
        currentHeaderHash := hashOf X
        currentHeader := X } := by
  have ht := hw.tables
  have hm := ht.number_ne_zero hS hp
  obtain ⟨t, ht', hmax⟩ := hw.tdMax
  obtain rfl : t = localTd := Option.some.inj (ht'.symm.trans hlocal)
  have hbelow : ∀ j ≤ X.number - 1, Function.update c X.number (some (hashOf X)) j = c j :=
    fun j hj => Function.update_of_ne (UInt64.ne_of_lt ((number_le_sub_one_iff hm).mp hj)) _ _
  refine ⟨ht.store hS hX hp, fun i => ?_, by simp, by simp, ?_, X.difficulty + ptd,
    by simp [HeaderChain.currentTd, HeaderChain.getTd, ChainDb.readTd], ?_⟩
  · -- the numbers below the head are those of its ancestry
    simp only [ChainDb.canonical_writeCanonicalHash, Function.update_apply]
    split_ifs with hi
    · simp [hi]
    · rcases UInt64.lt_or_le i X.number with hlt | hge'
      · obtain ⟨h, H, hci, -⟩ := hlink i ((number_le_sub_one_iff hm).mpr hlt)
        simp [hci, UInt64.le_of_lt hlt]
      · have hgt : X.number < i := UInt64.lt_of_le_of_ne hge' (Ne.symm hi)
        simp [hnone i hgt, UInt64.not_le.mpr hgt]
  · have hcX : Function.update c X.number (some (hashOf X)) X.number = some (hashOf X) := by
      simp
    have hXs : Function.update hc.chainDb.headers (hashOf X, X.number) (some X)
        (hashOf X, X.number) = some X := by
      simp
    simp only [ChainDb.canonical_writeCanonicalHash, ChainDb.headers_writeCanonicalHash,
      ChainDb.headers_writeHeader, ChainDb.headers_writeTd]
    exact (hlink.congr hbelow (fun _ _ _ hk => hk)).cons hm hcX hXs
      (by rw [hbelow _ (UInt64.le_refl _)]; exact hpar)
  · exact update_td_le (fun k t hk => Nat.le_trans (hmax k t hk) hge) (Nat.le_refl _)

end Store

/-- One `WriteHeader` of a header of `S` whose parent is stored succeeds and keeps the chain
well formed; when the header becomes the head, the head's total difficulty is the
header's. -/
theorem writeHeader (hS : Admissible hashOf S) {X : Header} (hX : X ∈ S)
    (hp : hc.hasHeader X.parentHash (X.number - 1) = true) (coin : Bool) :
    ∃ st hc', hc.writeHeader hashOf X coin = .ok (st, hc') ∧ WellFormed hashOf S hc' ∧
      (st = .canonStatTy → hc'.currentTd = hc'.getTd (hashOf X) X.number) := by
  have ht := hw.tables
  obtain ⟨P, hP⟩ := Option.isSome_iff_exists.mp hp
  obtain ⟨ptd, hptd⟩ := ht.td_of_stored hP
  obtain ⟨localTd, hlocal, hmax⟩ := hw.tdMax
  have hm := ht.number_ne_zero hS hptd
  have hXlt := hS.number_lt X hX
  have hgetp : hc.getTd X.parentHash (X.number - 1) = some ptd := hptd
  have hgetl : hc.getTd hc.currentHeaderHash hc.currentHeader.number = some localTd := hlocal
  simp only [HeaderChain.writeHeader, hgetp, hgetl]
  by_cases hcond : localTd < X.difficulty + ptd ∨ (X.difficulty + ptd = localTd ∧ coin = true)
  · rw [if_pos hcond]
    set db₀ := (hc.chainDb.writeTd (hashOf X) X.number (X.difficulty + ptd)).writeHeader hashOf X
      with hdb₀
    have ht₀ : Tables hashOf S (hashOf hc.genesisHeader) db₀.headers db₀.tds := ht.store hS hX hptd
    -- the first loop deletes the canonical hashes above the new header
    have hnz₀ : ∀ j h, db₀.canonical j = some h → h ≠ 0 := fun j h hj => hw.canonical_ne_zero hS hj
    have hkeys₀ : ∀ j, X.number + 1 ≤ j → ((db₀.canonical j).isSome ↔ j ≤ hc.currentHeader.number) :=
      fun j _ => hw.canonical_isSome j
    have hN := ht.number_lt hS hw.current
    rw [deleteCanonicalFrom_spec hN hnz₀ hkeys₀ (by omega)]
    simp only [bind, Except.bind]
    set db₁ : ChainDb :=
      { db₀ with canonical := fun j => if X.number + 1 ≤ j then none else db₀.canonical j }
      with hdb₁
    have hlow : ∀ j, j < X.number → db₁.canonical j = hc.chainDb.canonical j := fun j hj =>
      if_neg fun h => UInt64.lt_irrefl j
        (UInt64.lt_trans hj ((number_add_one_le_iff hXlt).mp h))
    -- the second loop writes the ancestry of the new header
    have hkeyed₁ : ∀ h n H, db₁.headers (h, n) = some H → H.number = n :=
      fun h n H hH => (ht₀.keyed h n H hH).2
    have hnz₁ : ∀ h n H, db₁.headers (h, n) = some H → h ≠ 0 :=
      fun h n H hH => ht₀.hash_ne hS hH
    have hpar₁ : ∀ h n H, db₁.headers (h, n) = some H → n ≠ 0 →
        ∃ P, db₁.headers (H.parentHash, n - 1) = some P :=
      fun h n H hH hn => ht₀.parent hH hn
    have hgen₁ : ∀ h H, db₁.headers (h, 0) = some H → db₁.canonical 0 = some h := by
      intro h H hH
      rw [hlow 0 (UInt64.lt_of_le_of_ne UInt64.zero_le (Ne.symm hm)), hw.canonical_zero,
        ht₀.genesis h H hH]
    have hlinked₁ : ∀ j ≤ X.number - 1, (db₁.canonical j).isSome →
        Linked db₁.headers db₁.canonical j := by
      intro j hj hsome
      have hjX := (number_le_sub_one_iff hm).mp hj
      rw [hlow j hjX] at hsome
      exact (hw.linked.le ((hw.canonical_isSome j).mp hsome)).congr
        (fun k hk => hlow k (UInt64.lt_of_le_of_lt hk hjX))
        (fun _ _ _ hk => ht.store_headers hS hX hk)
    have hP₁ : db₁.headers (X.parentHash, X.number - 1) = some P := ht.store_headers hS hX hP
    have hfuel₁ : (X.number - 1).toNat < X.number.toNat := by
      have := toNat_eq_zero_iff.not.mpr hm
      rw [toNat_sub_one hm]
      omega
    obtain ⟨c, hrun, hcn, habove, hlink⟩ :=
      rewriteCanonical_spec hkeyed₁ hnz₁ hpar₁ hgen₁ hlinked₁ hP₁ hfuel₁
    rw [show db₁.readHeader X.parentHash (X.number - 1) = some P from hP₁, hrun]
    have hnone : ∀ j, X.number < j → c j = none := by
      intro j hj
      rw [habove j (UInt64.lt_trans (number_sub_one_lt hm) hj)]
      exact if_pos ((number_add_one_le_iff hXlt).mpr hj)
    refine ⟨_, _, rfl, hw.reroute hS hX hptd hlocal (by omega) hlink hcn hnone, fun _ => rfl⟩
  · rw [if_neg hcond]
    exact ⟨.sideStatTy, _, rfl, hw.side hS hX hptd hlocal (by omega), fun h => nomatch h⟩

theorem canonicalUpTo : CanonicalUpTo hc hc.currentHeader.number :=
  ⟨hw.canonical_isSome, by simp [ChainDb.readCanonicalHash, hw.canonical_current]⟩

theorem parentLinked : ParentLinked hc hc.currentHeader.number :=
  hw.linked.parentLinked fun h n H _ hH => (hw.tables.keyed h n H hH).2

theorem tdSums : TdSums hc :=
  fun h n H hH hn => hw.tables.tdSum h n H hH hn

theorem tdMax' : TdMax hc := by
  obtain ⟨t, ht, hmax⟩ := hw.tdMax
  exact ⟨t, ht, fun h n t' h' => hmax (h, n) t' h'⟩

/-- `SetHead` to a number up to the head's: the head's ancestor at that number becomes the
head, and the canonical table is its ancestry. -/
theorem setHead {head : UInt64} (hh : head ≤ hc.currentHeader.number) :
    ∃ hc', hc.setHead hashOf head = .ok hc' ∧ hc'.currentHeader.number = head ∧
      CanonicalUpTo hc' head ∧ ParentLinked hc' head := by
  have ht := hw.tables
  have hhash := (ht.keyed _ _ _ hw.current).1
  have hcur : hc.chainDb.canonical hc.currentHeader.number = some (hashOf hc.currentHeader) := by
    rw [hhash]
    exact hw.canonical_current
  have hH : hc.chainDb.headers (hashOf hc.currentHeader, hc.currentHeader.number) =
      some hc.currentHeader := by
    rw [hhash]
    exact hw.current
  obtain ⟨db', H₀, hrun, hcan, hkeep, hc₀, hH₀⟩ :=
    deleteHeadersAbove_spec hashOf (fun h n H hH' => ht.keyed h n H hH') hw.linked hcur hH hh
      (show hc.currentHeader.number.toNat - head.toNat < hc.currentHeader.number.toNat + 1 by
        omega)
  have hnum : H₀.number = head := (ht.keyed _ _ _ hH₀).2
  simp only [HeaderChain.setHead, bind, Except.bind, hrun, Option.getD_some,
    deleteCanonicalRange_spec]
  refine ⟨_, rfl, hnum, ⟨fun i => ?_, ?_⟩, ?_⟩
  · -- the numbers above `head` are gone, those up to it remain
    dsimp only
    rw [hcan]
    by_cases hi : head < i ∧ i ≤ hc.currentHeader.number
    · simp [hi.1, hi.2, UInt64.not_le.mpr hi.1]
    · rw [if_neg hi, hw.canonical_isSome]
      constructor
      · intro hiN
        exact UInt64.not_lt.mp fun hlt => hi ⟨hlt, hiN⟩
      · intro hih
        exact UInt64.le_trans hih hh
  · simp [ChainDb.readCanonicalHash, hcan, UInt64.lt_irrefl, hc₀]
  · -- the chain up to `head` reads only what `SetHead` keeps
    refine Linked.parentLinked ((hw.linked.le hh).congr (fun j hj => ?_) (fun k H hk hH' => ?_))
      (fun h n H hn hH' => ?_)
    · simp [hcan, UInt64.not_lt.mpr hj]
    · rw [hkeep k hk]
      exact hH'
    · rw [hkeep (h, n) hn] at hH'
      exact (ht.keyed h n H hH').2

end WellFormed

/-! ### Runs of `WriteHeader` -/

/-- The header chains a run of `WriteHeader` calls reaches from the genesis header, each call
for a header of `S` whose parent is stored, with any coin flips. -/
inductive Reachable (hashOf : Header → Hash) (S : Set Header) : HeaderChain → Prop
  | genesis {g : Header} : g ∈ S → g.number = 0 →
      Reachable hashOf S (HeaderChain.ofGenesis hashOf g)
  | writeHeader {hc hc' : HeaderChain} {header : Header} {coin : Bool} {status : WriteStatus} :
      Reachable hashOf S hc → header ∈ S →
      hc.hasHeader header.parentHash (header.number - 1) = true →
      hc.writeHeader hashOf header coin = .ok (status, hc') → Reachable hashOf S hc'

section Runs

variable {hashOf : Header → Hash} {S : Set Header}

/-- Every header chain a run reaches is well formed. -/
theorem Reachable.wellFormed (hS : Admissible hashOf S) {hc : HeaderChain}
    (hr : Reachable hashOf S hc) : WellFormed hashOf S hc := by
  induction hr with
  | genesis hg hg0 => exact WellFormed.ofGenesis hg hg0
  | @writeHeader hc hc' X coin st _ hX hp hrun ih =>
    obtain ⟨st', hc'', hrun', hw', -⟩ := ih.writeHeader hS hX hp coin
    rw [hrun] at hrun'
    cases hrun'
    exact hw'

/-- The header chain keeps a well-formed canonical chain, on runs of headers no two of which
share a hash, none of hash zero and none at the greatest number: after every `WriteHeader`
the canonical numbers are exactly those up to the head's, with the head's hash on top
(`CanonicalUpTo`), each canonical header's parent canonical below it (`ParentLinked`), every
total difficulty its parent's plus the header's difficulty (`TdSums`) and the head's the
greatest (`TdMax`); a `WriteHeader` of a header whose parent is stored succeeds; a header
made head with a greater total difficulty raises the head's; and `SetHead` to a number up
to the head's leaves a canonical chain up to that number. -/
theorem headerChain_canonical (hS : Admissible hashOf S) :
    (∀ hc : HeaderChain, Reachable hashOf S hc →
      CanonicalUpTo hc hc.currentHeader.number ∧ ParentLinked hc hc.currentHeader.number ∧
        TdSums hc ∧ TdMax hc) ∧
    (∀ (hc : HeaderChain) (X : Header) (coin : Bool), Reachable hashOf S hc → X ∈ S →
      hc.hasHeader X.parentHash (X.number - 1) = true →
        ∃ st hc', hc.writeHeader hashOf X coin = .ok (st, hc')) ∧
    (∀ (hc hc' : HeaderChain) (X : Header) (coin : Bool) (t t' : Nat),
      hc.writeHeader hashOf X coin = .ok (.canonStatTy, hc') →
      hc.currentTd = some t → hc'.getTd (hashOf X) X.number = some t' → t < t' →
        ∃ t'', hc'.currentTd = some t'' ∧ t < t'') ∧
    (∀ (hc : HeaderChain) (head : UInt64), Reachable hashOf S hc → head ≤ hc.currentHeader.number →
      ∃ hc', hc.setHead hashOf head = .ok hc' ∧ hc'.currentHeader.number = head ∧
        CanonicalUpTo hc' head ∧ ParentLinked hc' head) := by
  refine ⟨fun hc hr => ?_, fun hc X coin hr hX hp => ?_, fun hc hc' X coin t t' hrun _ ht' hlt => ?_,
    fun hc head hr hh => (hr.wellFormed hS).setHead hh⟩
  · have hw := hr.wellFormed hS
    exact ⟨hw.canonicalUpTo, hw.parentLinked, hw.tdSums, hw.tdMax'⟩
  · obtain ⟨st, hc', hrun, -⟩ := (hr.wellFormed hS).writeHeader hS hX hp coin
    exact ⟨st, hc', hrun⟩
  · exact ⟨t', (writeHeader_canonStatTy hashOf hrun).trans ht', hlt⟩

end Runs

/-! A genesis header and its child, hashed by number. -/

namespace TwoHeaders

def hashOf (H : Header) : Hash := if H.number = 0 then 1 else 2

def genesis : Header := ⟨0, 1, 0, []⟩

def child : Header := ⟨1, 1, 1, []⟩

end TwoHeaders

theorem headerChain_canonical_twoHeaders :
    Admissible TwoHeaders.hashOf {TwoHeaders.genesis, TwoHeaders.child} ∧
      ∃ st hc', (HeaderChain.ofGenesis TwoHeaders.hashOf TwoHeaders.genesis).writeHeader
        TwoHeaders.hashOf TwoHeaders.child true = .ok (st, hc') := by
  have hA : Admissible TwoHeaders.hashOf {TwoHeaders.genesis, TwoHeaders.child} := by
    refine ⟨?_, ?_, ?_⟩
    · rintro x (rfl | rfl) y (rfl | rfl) hxy
      all_goals first | rfl | exact absurd hxy (by decide)
    · rintro H (rfl | rfl) <;> decide
    · rintro H (rfl | rfl) <;> decide
  exact ⟨hA, (headerChain_canonical hA).2.1 _ _ true (.genesis (by simp) rfl) (by simp)
    (by decide)⟩

end Core
