import Dsplinz.Dsp.Fetcher

/-!
# The fetcher's counters against denial of service

The fetcher keeps, per peer, the count of its announces (`announces`) and of its queued
blocks (`queues`). Each should be the number of records of the peer that the maps hold:
`Dsp.Fetcher.records` for the announces, over `announced`, `fetching`, `fetched` and
`completing`, and `Dsp.Fetcher.queuedCount` for the queued blocks.

The queue's counter is exact in every state the loop reaches, and never above `blockLimit`
(`Dsp.Fetcher.reachable_queueCounts`): `enqueue` counts each block it queues, and
`forgetBlock` uncounts each block it drops.

The announces' counter is not. `forgetHash` uncounts every record of a hash, but the records
that the timers and the header filter move between the maps are never counted again: the
fetch timer forgets the hash and then puts the drawn announce in `fetching`, the complete
timer does so into `completing`, and the header filter copies the announce of `fetching` into
`fetched` or `completing`. `Dsp.Fetcher.deficit` is how far the counter falls behind the
records; `forgetHash` keeps it (`Dsp.Fetcher.deficit_forgetHash`), and each such move raises
it by one (`Dsp.Fetcher.fetchTimer_undercounts`). When the moved record is forgotten in turn,
the counter goes below zero, and the peer may then hold more than `hashLimit` announces
(`Dsp.Fetcher.announces_undercount_run`).
-/

namespace Dsp

open Common

namespace Fetcher

variable {Tx : Type}

/-! ### Counting the records of a peer -/

/-- An announce of `p` counts one. -/
def ofPeer (p : String) (a : Announce) : Nat := if a.origin = p then 1 else 0

/-- The announces of `p` in a list. -/
def countPeer (p : String) (l : List Announce) : Nat := (l.map (ofPeer p)).sum

/-- The records of `p` that the four announce maps hold. -/
def records (f : Fetcher Tx) (p : String) : Nat :=
  f.announced.sumValues (countPeer p) + f.fetching.sumValues (ofPeer p) +
    f.fetched.sumValues (countPeer p) + f.completing.sumValues (ofPeer p)

/-- How far the counter `announces[p]` falls behind the records of `p`. -/
def deficit (f : Fetcher Tx) (p : String) : Int := (records f p : Int) - f.announces p

/-- The blocks of `p` that `queued` holds. -/
def queuedCount (f : Fetcher Tx) (p : String) : Nat :=
  f.queued.sumValues fun op => if op.origin = p then 1 else 0

@[simp] theorem countPeer_nil (p : String) : countPeer p [] = 0 := rfl

@[simp] theorem countPeer_cons (p : String) (a : Announce) (l : List Announce) :
    countPeer p (a :: l) = ofPeer p a + countPeer p l := by
  simp only [countPeer, List.map_cons, List.sum_cons]

@[simp] theorem countPeer_append (p : String) (l l' : List Announce) :
    countPeer p (l ++ l') = countPeer p l + countPeer p l' := by
  simp only [countPeer, List.map_append, List.sum_append]

theorem countPeer_getD {m : AList fun _ : Hash => List Announce} (p : String) (h : Hash) :
    countPeer p ((m.lookup h).getD []) = m.valueAt (countPeer p) h := by
  rcases hl : m.lookup h with _ | l
  · rw [AList.valueAt_of_lookup_none hl]
    rfl
  · rw [AList.valueAt_of_lookup hl]
    rfl

theorem decrement_apply (counts : String → Int) (q p : String) :
    decrement counts q p = counts p - (if q = p then 1 else 0) := by
  unfold decrement
  by_cases hq : q = p
  · subst hq
    simp
  · rw [Function.update_of_ne (Ne.symm hq), if_neg hq, Int.sub_zero]

theorem decrement_origin (counts : String → Int) (a : Announce) (p : String) :
    decrement counts a.origin p = counts p - ofPeer p a := by
  rw [decrement_apply, ofPeer]
  split <;> rfl

theorem decrementAll_apply (counts : String → Int) (l : List Announce) (p : String) :
    decrementAll counts l p = counts p - countPeer p l := by
  induction l generalizing counts with
  | nil => simp [decrementAll]
  | cons a l ih =>
    change decrementAll (decrement counts a.origin) l p = _
    rw [ih, decrement_origin, countPeer_cons]
    push_cast
    ring

/-! ### `forgetHash` and `forgetBlock` -/

variable {f : Fetcher Tx} {h : Hash}

theorem forgetHash_announced : (forgetHash h f).announced = f.announced.erase h := by
  unfold forgetHash
  dsimp only
  split <;> split <;> rfl

theorem forgetHash_fetching : (forgetHash h f).fetching =
    if (f.fetching.lookup h).isSome then f.fetching.erase h else f.fetching := by
  unfold forgetHash
  dsimp only
  rcases f.fetching.lookup h with _ | a
  · dsimp only
    split <;> rfl
  · dsimp only
    split <;> rfl

theorem forgetHash_fetched : (forgetHash h f).fetched = f.fetched.erase h := by
  unfold forgetHash
  dsimp only
  split <;> split <;> rfl

theorem forgetHash_completing : (forgetHash h f).completing =
    if (f.completing.lookup h).isSome then f.completing.erase h else f.completing := by
  unfold forgetHash
  dsimp only
  -- the first phases leave `completing` as it was
  rcases f.fetching.lookup h with _ | a <;> dsimp only <;>
    rcases f.completing.lookup h with _ | b <;> rfl

@[simp] theorem forgetHash_queue : (forgetHash h f).queue = f.queue := by
  unfold forgetHash
  dsimp only
  split <;> split <;> rfl

@[simp] theorem forgetHash_queues : (forgetHash h f).queues = f.queues := by
  unfold forgetHash
  dsimp only
  split <;> split <;> rfl

@[simp] theorem forgetHash_queued : (forgetHash h f).queued = f.queued := by
  unfold forgetHash
  dsimp only
  split <;> split <;> rfl

/-- `forgetHash` uncounts each record of the hash, in the four maps. -/
theorem forgetHash_announces (p : String) :
    (forgetHash h f).announces p = f.announces p -
      (f.announced.valueAt (countPeer p) h + f.fetching.valueAt (ofPeer p) h +
        f.fetched.valueAt (countPeer p) h + f.completing.valueAt (ofPeer p) h : Nat) := by
  unfold forgetHash
  dsimp only
  rcases hfe : f.fetching.lookup h with _ | a <;> rcases hco : f.completing.lookup h with _ | b <;>
    simp only [hfe, hco, decrement_origin, decrementAll_apply, countPeer_getD, AList.valueAt,
      Option.map_some, Option.map_none, Option.getD_some, Option.getD_none] <;>
    push_cast <;> ring

/-- A map that drops the key `h` when it holds it has lost what `h` added to its sum. -/
theorem sumValues_erase_if {β : Type} (c : β → Nat) (m : AList fun _ : Hash => β) :
    AList.sumValues c (if (m.lookup h).isSome then m.erase h else m) + m.valueAt c h =
      AList.sumValues c m := by
  split
  · exact AList.sumValues_erase h
  · rename_i hn
    rw [AList.valueAt_of_lookup_none (Option.not_isSome_iff_eq_none.mp hn), Nat.add_zero]

/-- `forgetHash` drops each record of the hash. -/
theorem records_forgetHash (p : String) :
    records (forgetHash h f) p +
      (f.announced.valueAt (countPeer p) h + f.fetching.valueAt (ofPeer p) h +
        f.fetched.valueAt (countPeer p) h + f.completing.valueAt (ofPeer p) h) = records f p := by
  have h₁ := AList.sumValues_erase (c := countPeer p) (m := f.announced) h
  have h₂ := sumValues_erase_if (h := h) (ofPeer p) f.fetching
  have h₃ := AList.sumValues_erase (c := countPeer p) (m := f.fetched) h
  have h₄ := sumValues_erase_if (h := h) (ofPeer p) f.completing
  unfold records
  rw [forgetHash_announced, forgetHash_fetching, forgetHash_fetched, forgetHash_completing]
  omega

/-- **`forgetHash` keeps the deficit**: it uncounts exactly the records it drops. -/
theorem deficit_forgetHash (p : String) : deficit (forgetHash h f) p = deficit f p := by
  have hr := records_forgetHash (f := f) (h := h) p
  rw [deficit, deficit, forgetHash_announces]
  omega

theorem lookup_forgetHash_fetching : (forgetHash h f).fetching.lookup h = none := by
  rw [forgetHash_fetching]
  split
  · exact AList.lookup_erase h _
  · exact Option.not_isSome_iff_eq_none.mp ‹_›

theorem lookup_forgetHash_completing : (forgetHash h f).completing.lookup h = none := by
  rw [forgetHash_completing]
  split
  · exact AList.lookup_erase h _
  · exact Option.not_isSome_iff_eq_none.mp ‹_›

/-- `forgetBlock` leaves the announces alone. -/
theorem deficit_forgetBlock (p : String) : deficit (forgetBlock h f) p = deficit f p := by
  unfold forgetBlock
  split <;> rfl

/-! ### Writes to the announce maps -/

/-- A record in place of one of the same peer leaves the deficit. -/
theorem deficit_insert_fetching_of_lookup {a a' : Announce} (hl : f.fetching.lookup h = some a)
    (ho : a'.origin = a.origin) (p : String) :
    deficit { f with fetching := f.fetching.insert h a' } p = deficit f p := by
  have herase := AList.sumValues_erase (c := ofPeer p) (m := f.fetching) h
  have hsame : ofPeer p a' = ofPeer p a := by rw [ofPeer, ofPeer, ho]
  rw [AList.valueAt_of_lookup hl] at herase
  simp only [deficit, records, AList.sumValues_insert]
  omega

/-- A record put in `fetching` under a free key counts, for its peer, in the deficit. -/
theorem deficit_insert_fetching (hn : f.fetching.lookup h = none) (a : Announce) (p : String) :
    deficit { f with fetching := f.fetching.insert h a } p = deficit f p + ofPeer p a := by
  simp only [deficit, records, AList.sumValues_insert_of_lookup_none hn]
  push_cast
  ring

/-- A record put in `completing` under a free key counts, for its peer, in the deficit. -/
theorem deficit_insert_completing (hn : f.completing.lookup h = none) (a : Announce)
    (p : String) :
    deficit { f with completing := f.completing.insert h a } p = deficit f p + ofPeer p a := by
  simp only [deficit, records, AList.sumValues_insert_of_lookup_none hn]
  push_cast
  ring

/-- A record appended in `fetched` counts, for its peer, in the deficit. -/
theorem deficit_append_fetched (a : Announce) (p : String) :
    deficit { f with fetched := f.fetched.insert h ((f.fetched.lookup h).getD [] ++ [a]) } p =
      deficit f p + ofPeer p a := by
  have herase := AList.sumValues_erase (c := countPeer p) (m := f.fetched) h
  rw [← countPeer_getD] at herase
  simp only [deficit, records, AList.sumValues_insert, countPeer_append, countPeer_cons,
    countPeer_nil]
  push_cast
  omega

/-! ### What a round can do to the counters

Every handler of the loop is `Tame`: the deficit of no peer goes down, and an exact queue
counter stays exact. -/

/-- The queue's counter is exact, and within `blockLimit`. -/
structure QueueCounts (f : Fetcher Tx) : Prop where
  exact : ∀ p, f.queues p = queuedCount f p
  le : ∀ p, f.queues p ≤ blockLimit

/-- What every handler of the loop does to the counters. -/
structure Tame (f f' : Fetcher Tx) : Prop where
  deficit_le : ∀ p, deficit f p ≤ deficit f' p
  queueCounts : QueueCounts f → QueueCounts f'

theorem Tame.refl (f : Fetcher Tx) : Tame f f := ⟨fun _ => le_refl _, id⟩

theorem Tame.trans {f₁ f₂ f₃ : Fetcher Tx} (h₁ : Tame f₁ f₂) (h₂ : Tame f₂ f₃) : Tame f₁ f₃ :=
  ⟨fun p => (h₁.deficit_le p).trans (h₂.deficit_le p), fun hq => h₂.queueCounts (h₁.queueCounts hq)⟩

/-- A handler that leaves the queue's fields and keeps or raises the deficits is tame. -/
theorem Tame.of_queue {f' : Fetcher Tx} (hq : f'.queues = f.queues) (hd : f'.queued = f.queued)
    (hdef : ∀ p, deficit f p ≤ deficit f' p) : Tame f f' :=
  ⟨hdef, fun hc => ⟨fun p => by rw [hq, queuedCount, hd]; exact hc.exact p,
    fun p => by rw [hq]; exact hc.le p⟩⟩

/-- A fold whose steps are tame on the fetcher they carry is tame. -/
theorem tame_foldl {σ α : Type} (π : σ → Fetcher Tx) {g : σ → α → σ} (l : List α)
    (hg : ∀ s x, x ∈ l → Tame (π s) (π (g s x))) (s : σ) : Tame (π s) (π (l.foldl g s)) := by
  induction l generalizing s with
  | nil => exact Tame.refl (π s)
  | cons x l ih =>
    exact (hg s x List.mem_cons_self).trans
      (ih (fun s' y hy => hg s' y (List.mem_cons_of_mem x hy)) _)

theorem tame_forgetHash : Tame f (forgetHash h f) :=
  Tame.of_queue forgetHash_queues forgetHash_queued fun p => (deficit_forgetHash p).ge

theorem tame_forgetBlock : Tame f (forgetBlock h f) := by
  refine ⟨fun p => (deficit_forgetBlock p).ge, fun hc => ?_⟩
  unfold forgetBlock
  rcases hl : f.queued.lookup h with _ | op
  · exact hc
  -- the block's origin is uncounted as its entry goes
  refine ⟨fun p => ?_, fun p => ?_⟩
  · have herase := AList.sumValues_erase
      (c := fun op : Inject Tx => if op.origin = p then 1 else 0) (m := f.queued) h
    rw [AList.valueAt_of_lookup hl] at herase
    change decrement f.queues op.origin p = (f.queued.erase h).sumValues _
    rw [decrement_apply, hc.exact p, queuedCount, ← herase]
    split <;> push_cast <;> omega
  · change decrement f.queues op.origin p ≤ _
    rw [decrement_apply]
    have := hc.le p
    split <;> omega

/-- An announce `Notify` accepts is a record, and counted. -/
theorem deficit_append_announced (a : Announce) (p : String) :
    deficit { f with announces := Function.update f.announces a.origin (f.announces a.origin + 1),
                     announced := f.announced.insert a.hash
                       ((f.announced.lookup a.hash).getD [] ++ [a]) } p = deficit f p := by
  have herase := AList.sumValues_erase (c := countPeer p) (m := f.announced) a.hash
  rw [← countPeer_getD] at herase
  simp only [deficit, records, AList.sumValues_insert, countPeer_append, countPeer_cons,
    countPeer_nil, ofPeer]
  by_cases hp : a.origin = p
  · subst hp
    rw [Function.update_self, if_pos rfl]
    push_cast
    omega
  · rw [Function.update_of_ne (Ne.symm hp), if_neg hp]
    push_cast
    omega

theorem tame_notify (height : UInt64) (a : Announce) : Tame f (f.notify height a) := by
  unfold notify
  dsimp only
  split
  · exact Tame.refl f
  split
  · exact Tame.refl f
  split
  · exact Tame.refl f
  split
  · exact Tame.refl f
  · exact Tame.of_queue rfl rfl fun p => (deficit_append_announced a p).ge

theorem tame_insert_fetching_of_lookup {a a' : Announce} (hl : f.fetching.lookup h = some a)
    (ho : a'.origin = a.origin) : Tame f { f with fetching := f.fetching.insert h a' } :=
  Tame.of_queue rfl rfl fun p => (deficit_insert_fetching_of_lookup hl ho p).ge

theorem tame_insert_completing (hn : f.completing.lookup h = none) (a : Announce) :
    Tame f { f with completing := f.completing.insert h a } :=
  Tame.of_queue rfl rfl fun p => by
    rw [deficit_insert_completing hn]
    omega

theorem tame_fetchOne (now : Int) (known : Hash → Bool) (rand : Hash → Nat)
    (e : Σ _ : Hash, List Announce) : Tame f (fetchOne now known rand f e) := by
  unfold fetchOne
  split
  · exact Tame.refl f
  split
  · dsimp only
    split
    · exact tame_forgetHash
    -- the drawn announce is put back in `fetching`, uncounted
    · refine tame_forgetHash.trans (Tame.of_queue rfl rfl fun p => ?_)
      rw [deficit_insert_fetching lookup_forgetHash_fetching]
      omega
  · exact Tame.refl f

theorem tame_completeOne (known : Hash → Bool) (rand : Hash → Nat)
    (e : Σ _ : Hash, List Announce) : Tame f (completeOne known rand f e) := by
  unfold completeOne
  split
  · exact Tame.refl f
  dsimp only
  split
  · exact tame_forgetHash
  · exact tame_forgetHash.trans (tame_insert_completing lookup_forgetHash_completing _)

theorem tame_expire (now : Int) : Tame f (expire now f) := by
  refine tame_foldl id _ (fun f e _ => ?_) f
  dsimp only [id]
  split
  · exact tame_forgetHash
  · exact Tame.refl f

section Hashing

variable (hs : Hasher Tx)

theorem tame_enqueue (height : UInt64) (peer : String) (block : Block Tx) :
    Tame f (enqueue hs height peer block f) := by
  unfold enqueue
  dsimp only
  split
  · exact tame_forgetHash
  rename_i hcount
  split
  · exact tame_forgetHash
  split
  · exact Tame.refl f
  rename_i hl
  -- a fresh block is queued and counted
  refine ⟨fun p => le_refl _, fun hc => ⟨fun p => ?_, fun p => ?_⟩⟩
  · change Function.update f.queues peer (f.queues peer + 1) p =
      (f.queued.insert _ _).sumValues _
    rw [AList.sumValues_insert_of_lookup_none hl]
    change _ = (((if peer = p then 1 else 0) + queuedCount f p : Nat) : Int)
    push_cast
    rw [← hc.exact p]
    by_cases hp : peer = p
    · subst hp
      rw [Function.update_self, if_pos rfl]
      omega
    · rw [Function.update_of_ne (Ne.symm hp), if_neg hp]
      omega
  · change Function.update f.queues peer (f.queues peer + 1) p ≤ _
    by_cases hp : peer = p
    · subst hp
      rw [Function.update_self]
      exact Int.not_lt.mp hcount
    · rw [Function.update_of_ne (Ne.symm hp)]
      exact hc.le p

theorem tame_importLoop (height : UInt64) (known : Hash → Bool) :
    ∀ (queue : List (Inject Tx)) (f : Fetcher Tx), Tame f (importLoop hs height known queue f)
  | [], f => Tame.of_queue rfl rfl fun _ => le_refl _
  | op :: rest, f => by
    unfold importLoop
    dsimp only
    split
    · exact Tame.of_queue rfl rfl fun _ => le_refl _
    split
    · exact tame_forgetBlock.trans (tame_importLoop height known rest _)
    · exact tame_importLoop height known rest f

theorem tame_loopHead (c : Chain) : Tame f (loopHead hs c f) :=
  tame_expire c.now |>.trans (tame_importLoop hs c.height c.known _ _)

theorem tame_filterHeader (peer : String) (time : Int) (known : Hash → Bool) (acc : HeaderSplit Tx)
    (header : Header) : Tame acc.fetcher (filterHeader hs peer time known acc header).fetcher := by
  unfold filterHeader
  dsimp only
  split
  · rename_i a hl
    split
    · rename_i hcond
      simp only [Bool.and_eq_true, decide_eq_true_eq, Option.isNone_iff_eq_none] at hcond
      obtain ⟨⟨⟨-, -⟩, hco⟩, -⟩ := hcond
      split
      · exact tame_forgetHash
      split
      · exact tame_forgetHash
      -- the completed announce takes the place of the fetching one
      have hfetch := tame_insert_fetching_of_lookup hl
        (show ({ a with header := some header, time } : Announce).origin = a.origin from rfl)
      split
      · refine hfetch.trans ?_
        apply tame_insert_completing
        exact hco
      · exact hfetch
    · exact Tame.refl _
  · exact Tame.refl _

theorem tame_scheduleIncomplete (a : Announce) : Tame f (scheduleIncomplete hs f a) := by
  unfold scheduleIncomplete
  split
  · exact Tame.refl f
  dsimp only
  split
  · exact Tame.refl f
  · refine Tame.of_queue rfl rfl fun p => ?_
    rw [deficit_append_fetched]
    omega

theorem tame_enqueueComplete (height : UInt64) (block : Block Tx) :
    Tame f (enqueueComplete hs height f block) := by
  unfold enqueueComplete
  split
  · exact tame_enqueue hs height _ block
  · exact Tame.refl f

theorem tame_headerFilter (height : UInt64) (known : Hash → Bool) (peer : String)
    (headers : List Header) (time : Int) : Tame f (headerFilter hs height known peer headers time f).2 := by
  unfold headerFilter
  dsimp only
  have h₁ := tame_foldl HeaderSplit.fetcher headers
    (fun acc header _ => tame_filterHeader hs peer time known acc header) ⟨[], [], [], f⟩
  exact h₁.trans ((tame_foldl id _ (fun f a _ => tame_scheduleIncomplete hs a) _).trans
    (tame_foldl id _ (fun f b _ => tame_enqueueComplete hs height b) _))

theorem tame_matchOne (peer : String) (known : Hash → Bool) (body : List Tx × List Header)
    (acc : Bool × List (Block Tx) × Fetcher Tx) (e : Σ _ : Hash, Announce) :
    Tame acc.2.2 (matchOne hs peer known body acc e).2.2 := by
  unfold matchOne
  dsimp only
  split
  · exact Tame.refl _
  split
  · exact Tame.refl _
  split
  · split
    · exact tame_forgetHash
    · exact Tame.refl _
  · exact Tame.refl _

theorem tame_bodyLoop (peer : String) (known : Hash → Bool) :
    ∀ (bodies : List (List Tx × List Header)) (f : Fetcher Tx),
      Tame f (bodyLoop hs peer known bodies f).2.2
  | [], f => Tame.refl f
  | body :: rest, f => by
    have hmatch : Tame f (matchBody hs peer known body f).2.2 :=
      tame_foldl (fun acc : Bool × List (Block Tx) × Fetcher Tx => acc.2.2) _
        (fun acc e _ => tame_matchOne hs peer known body acc e) (false, [], f)
    unfold bodyLoop
    rcases hm : matchBody hs peer known body f with ⟨matched, blocks, f₁⟩
    rw [hm] at hmatch
    exact hmatch.trans (tame_bodyLoop peer known rest f₁)

theorem tame_bodyFilter (height : UInt64) (known : Hash → Bool) (peer : String)
    (transactions : List (List Tx)) (uncles : List (List Header)) :
    Tame f (bodyFilter hs height known peer transactions uncles f).2 := by
  unfold bodyFilter
  have hloop := tame_bodyLoop hs peer known (transactions.zip uncles) f
  rcases hl : bodyLoop hs peer known (transactions.zip uncles) f with ⟨kept, blocks, f₁⟩
  rw [hl] at hloop
  exact hloop.trans (tame_foldl id _ (fun f b _ => tame_enqueueComplete hs height b) _)

/-- **Every round of the loop is tame.** -/
theorem tame_step (c : Chain) (ev : Event Tx) : Tame f (step hs c ev f) := by
  refine (tame_loopHead hs c).trans ?_
  cases ev with
  | notify peer hash number time => exact tame_notify _ _
  | inject origin block => exact tame_enqueue hs _ _ _
  | done hash => exact tame_forgetHash.trans tame_forgetBlock
  | fetchTimer rand => exact tame_foldl id _ (fun f e _ => tame_fetchOne _ _ _ e) _
  | completeTimer rand => exact tame_foldl id _ (fun f e _ => tame_completeOne _ _ e) _
  | headerFilter peer headers time => exact tame_headerFilter hs _ _ _ _ _
  | bodyFilter peer transactions uncles => exact tame_bodyFilter hs _ _ _ _ _

theorem deficit_new (p : String) : deficit (new : Fetcher Tx) p = 0 := rfl

/-- From `New`, every run of the loop is tame. -/
theorem tame_of_reachable {f : Fetcher Tx} (hr : Reachable hs f) : Tame new f := by
  induction hr with
  | refl => exact Tame.refl _
  | tail _ hstep ih =>
    obtain ⟨c, ev, rfl⟩ := hstep
    exact ih.trans (tame_step hs c ev)

/-- The announces' counter never exceeds the records of its peer. -/
theorem reachable_announces_le {f : Fetcher Tx} (hr : Reachable hs f) (p : String) :
    f.announces p ≤ records f p := by
  have h := (tame_of_reachable hs hr).deficit_le p
  rw [deficit_new, deficit] at h
  omega

theorem reachable_announces_le_notify :
    (step ⟨fun _ => 0, fun _ => 0, fun _ => 0⟩ ⟨0, 0, fun _ => false⟩ (.notify "p" 0 0 0)
        (new : Fetcher Unit)).announces "p" ≤
      records (step ⟨fun _ => 0, fun _ => 0, fun _ => 0⟩ ⟨0, 0, fun _ => false⟩ (.notify "p" 0 0 0)
        (new : Fetcher Unit)) "p" :=
  reachable_announces_le _ (.single ⟨_, _, rfl⟩) "p"

end Hashing

/-! ### The fetch timer's undercount -/

/-- The fetch timer on an expired hash whose block has not arrived: the drawn announce is
back in `fetching` after `forgetHash` uncounted it. -/
theorem deficit_fetchOne_move {now : Int} {known : Hash → Bool} {rand : Hash → Nat}
    {e : Σ _ : Hash, List Announce} {a : Announce} {rest : List Announce} (he : e.2 = a :: rest)
    (hexp : arriveTimeout - gatherSlack < now - a.time) (hk : known e.1 = false) (p : String) :
    deficit (fetchOne now known rand f e) p = deficit f p +
      ofPeer p ((a :: rest).get ⟨rand e.1 % (rest.length + 1), Nat.mod_lt _ (Nat.succ_pos _)⟩) := by
  obtain ⟨k, l⟩ := e
  dsimp only at he hk ⊢
  subst he
  unfold fetchOne
  dsimp only
  rw [if_pos hexp, if_neg (by rw [hk]; exact Bool.false_ne_true),
    deficit_insert_fetching lookup_forgetHash_fetching, deficit_forgetHash]

/-- **The fetch timer undercounts**: when it fires on an announced hash that has expired and
whose block has not arrived, the peer `p` of the announce it draws falls one more behind its
records. -/
theorem fetchTimer_undercounts {now : Int} {known : Hash → Bool} {rand : Hash → Nat}
    {a : Announce} {rest : List Announce} {p : String}
    (hl : f.announced.lookup h = some (a :: rest))
    (hexp : arriveTimeout - gatherSlack < now - a.time) (hk : known h = false)
    (hp : ((a :: rest).get ⟨rand h % (rest.length + 1), Nat.mod_lt _ (Nat.succ_pos _)⟩).origin = p) :
    deficit f p < deficit (f.fetchTimer now known rand) p := by
  obtain ⟨l₁, l₂, hsplit⟩ := List.append_of_mem (AList.mem_lookup_iff.mp hl)
  unfold fetchTimer
  rw [hsplit, List.foldl_append, List.foldl_cons]
  have hone : ofPeer p ((a :: rest).get
      ⟨rand h % (rest.length + 1), Nat.mod_lt _ (Nat.succ_pos _)⟩) = 1 := by
    rw [ofPeer, if_pos hp]
  -- the hashes before `h` and after it do not lower the deficit, and `h` raises it
  calc deficit f p
      ≤ deficit (l₁.foldl (fetchOne now known rand) f) p :=
        (tame_foldl id l₁ (fun f e _ => tame_fetchOne now known rand e) f).deficit_le p
    _ < deficit (fetchOne now known rand (l₁.foldl (fetchOne now known rand) f) ⟨h, a :: rest⟩) p := by
        rw [deficit_fetchOne_move rfl hexp hk, hone]
        omega
    _ ≤ _ := (tame_foldl id l₂ (fun f e _ => tame_fetchOne now known rand e) _).deficit_le p

/-! ### A run in which a peer's counter goes negative

A peer announces a block; the fetch timer moves the announce to `fetching`, where its
counter no longer counts it; the fetch then times out, and `forgetHash` uncounts it a second
time. The counter reads `-1`, and the peer may then have `hashLimit + 1` announces
outstanding. -/

theorem expire_queue (now : Int) : (expire now f).queue = f.queue := by
  unfold expire
  induction f.fetching.entries generalizing f with
  | nil => rfl
  | cons e l ih =>
    rw [List.foldl_cons, ih]
    split
    · exact forgetHash_queue
    · rfl

/-- With nothing queued, the head of a round only expires fetches. -/
theorem loopHead_of_queue_nil (hs : Hasher Tx) (c : Chain) (hq : f.queue = []) :
    loopHead hs c f = expire c.now f := by
  have hq' : (expire c.now f).queue = [] := by rw [expire_queue, hq]
  unfold loopHead
  dsimp only
  rw [hq']
  simp only [importLoop]
  -- the queue was already empty
  generalize expire c.now f = g at hq' ⊢
  cases g
  cases hq'
  rfl

@[simp] theorem notify_fetching (height : UInt64) (a : Announce) :
    (f.notify height a).fetching = f.fetching := by
  unfold notify
  dsimp only
  split <;> try split <;> try split <;> try split
  all_goals rfl

@[simp] theorem notify_completing (height : UInt64) (a : Announce) :
    (f.notify height a).completing = f.completing := by
  unfold notify
  dsimp only
  split <;> try split <;> try split <;> try split
  all_goals rfl

@[simp] theorem notify_queue (height : UInt64) (a : Announce) :
    (f.notify height a).queue = f.queue := by
  unfold notify
  dsimp only
  split <;> try split <;> try split <;> try split
  all_goals rfl

/-- An announce of a block of unknown number, of a hash that is neither fetching nor
completing, from a peer below its limit, is accepted and counted. -/
theorem notify_accepted {height : UInt64} {a : Announce} (hn : a.number = 0)
    (hfe : f.fetching.lookup a.hash = none) (hco : f.completing.lookup a.hash = none)
    (hc : f.announces a.origin + 1 ≤ hashLimit) :
    f.notify height a = { f with
      announces := Function.update f.announces a.origin (f.announces a.origin + 1),
      announced := f.announced.insert a.hash ((f.announced.lookup a.hash).getD [] ++ [a]) } := by
  unfold notify
  dsimp only
  rw [if_neg (Int.not_lt.mpr hc), hn, if_neg (by simp), hfe, hco]
  rfl

/-- Announces of blocks of unknown number from `p`, while no hash is fetching or completing:
each is accepted, and is one more record of `p`. -/
theorem records_notifyRun (height : UInt64) (p : String) (time : Int) :
    ∀ (hashes : List Hash) (f : Fetcher Tx), f.fetching.entries = [] →
      f.completing.entries = [] → f.announces p + hashes.length ≤ hashLimit →
      records (hashes.foldl (fun f h => f.notify height ⟨h, 0, none, time, p⟩) f) p =
        records f p + hashes.length
  | [], f, _, _, _ => rfl
  | h :: hashes, f, hfe, hco, hc => by
    have hnone : ∀ {β : Type} (m : AList fun _ : Hash => β), m.entries = [] → m.lookup h = none :=
      fun m hm => AList.lookup_eq_none.mpr fun hmem => by
        rw [AList.mem_keys, AList.keys, hm] at hmem
        cases hmem
    have hacc : f.notify height ⟨h, 0, none, time, p⟩ = _ :=
      notify_accepted rfl (hnone _ hfe) (hnone _ hco)
      (by simp only [List.length_cons, Nat.cast_add, Nat.cast_one] at hc; dsimp only; omega)
    rw [List.foldl_cons, records_notifyRun height p time hashes _ (by rw [notify_fetching]; exact hfe)
      (by rw [notify_completing]; exact hco), hacc]
    · have hrec := deficit_append_announced (f := f) ⟨h, 0, none, time, p⟩ p
      simp only [deficit, Function.update_self] at hrec
      simp only [List.length_cons]
      omega
    · rw [hacc]
      simp only [Function.update_self, List.length_cons] at hc ⊢
      omega

theorem expire_of_entries_nil (now : Int) (hfe : f.fetching.entries = []) : expire now f = f := by
  unfold expire
  rw [hfe]
  rfl

section Run

variable (hs : Hasher Tx)

theorem step_notify_of_queue_nil {c : Chain} {p : String} {hash : Hash} {number : UInt64}
    {time : Int} (hq : f.queue = []) :
    step hs c (.notify p hash number time) f = (expire c.now f).notify c.height ⟨hash, number, none, time, p⟩ := by
  unfold step
  rw [loopHead_of_queue_nil hs c hq]

theorem step_fetchTimer_of_queue_nil {c : Chain} {rand : Hash → Nat} (hq : f.queue = []) :
    step hs c (.fetchTimer rand) f = (expire c.now f).fetchTimer c.now c.known rand := by
  unfold step
  rw [loopHead_of_queue_nil hs c hq]

/-- Rounds of announces from `p` of blocks of unknown number, while nothing is queued or
fetching, stay in the runs of the loop. -/
theorem reachable_notifyRun (c : Chain) (p : String) (time : Int) :
    ∀ (hashes : List Hash) (f : Fetcher Tx), Reachable hs f → f.queue = [] →
      f.fetching.entries = [] →
      Reachable hs (hashes.foldl (fun f h => f.notify c.height ⟨h, 0, none, time, p⟩) f)
  | [], f, hr, _, _ => hr
  | h :: hashes, f, hr, hq, hfe => by
    have hstep : step hs c (.notify p h 0 time) f = f.notify c.height ⟨h, 0, none, time, p⟩ := by
      rw [step_notify_of_queue_nil hs hq, expire_of_entries_nil c.now hfe]
    rw [List.foldl_cons]
    exact reachable_notifyRun c p time hashes _ (hr.tail ⟨c, _, hstep.symm⟩)
      (by rw [notify_queue]; exact hq) (by rw [notify_fetching]; exact hfe)

end Run

/-- The run: `p` announces the block of hash `0`, of unknown number, at time `0`; half a
second later the fetch timer moves the announce to `fetching`. The header never comes; after
`fetchTimeout` another peer `q` announces a block, and at the head of the next round, when `q`
announces another, the fetch expires. -/
def undercountRun : Fetcher Unit :=
  let f := (new : Fetcher Unit).notify 0 ⟨0, 0, none, 0, "p"⟩
  let f := f.fetchTimer arriveTimeout (fun _ => false) (fun _ => 0)
  let f := f.notify 0 ⟨1, 0, none, fetchTimeout + 1, "q"⟩
  (expire (fetchTimeout + 1) f).notify 0 ⟨2, 0, none, fetchTimeout + 1, "q"⟩

/-- **A peer's counter goes negative, and past it the peer exceeds `hashLimit`.** In a run of
the loop from `New`, the counter of `p` reads `-1` while no record of `p` is held; from there
`p` has 257 announces accepted. -/
theorem announces_undercount_run (hs : Hasher Unit) :
    ∃ f f' : Fetcher Unit, Reachable hs f ∧ f.announces "p" = -1 ∧ records f "p" = 0 ∧
      Reachable hs f' ∧ hashLimit < records f' "p" := by
  let c : Chain := ⟨fetchTimeout + 1, 0, fun _ => false⟩
  -- the three rounds of `undercountRun`
  have h₁ : step hs ⟨0, 0, fun _ => false⟩ (.notify "p" 0 0 0) new =
      (new : Fetcher Unit).notify 0 ⟨0, 0, none, 0, "p"⟩ :=
    step_notify_of_queue_nil hs rfl
  have h₂ : step hs ⟨arriveTimeout, 0, fun _ => false⟩ (.fetchTimer fun _ => 0)
      ((new : Fetcher Unit).notify 0 ⟨0, 0, none, 0, "p"⟩) =
      ((new : Fetcher Unit).notify 0 ⟨0, 0, none, 0, "p"⟩).fetchTimer arriveTimeout
        (fun _ => false) (fun _ => 0) :=
    step_fetchTimer_of_queue_nil hs rfl
  have h₃ : step hs ⟨arriveTimeout, 0, fun _ => false⟩ (.notify "q" 1 0 (fetchTimeout + 1))
      (((new : Fetcher Unit).notify 0 ⟨0, 0, none, 0, "p"⟩).fetchTimer arriveTimeout
        (fun _ => false) (fun _ => 0)) =
      (((new : Fetcher Unit).notify 0 ⟨0, 0, none, 0, "p"⟩).fetchTimer arriveTimeout
        (fun _ => false) (fun _ => 0)).notify 0 ⟨1, 0, none, fetchTimeout + 1, "q"⟩ := by
    rw [step_notify_of_queue_nil hs rfl]
    rfl
  have h₄ : step hs c (.notify "q" 2 0 (fetchTimeout + 1))
      ((((new : Fetcher Unit).notify 0 ⟨0, 0, none, 0, "p"⟩).fetchTimer arriveTimeout
        (fun _ => false) (fun _ => 0)).notify 0 ⟨1, 0, none, fetchTimeout + 1, "q"⟩) =
      undercountRun :=
    step_notify_of_queue_nil hs rfl
  have hrun : Reachable hs undercountRun :=
    (((Relation.ReflTransGen.refl.tail ⟨_, _, h₁.symm⟩).tail ⟨_, _, h₂.symm⟩).tail
      ⟨_, _, h₃.symm⟩).tail ⟨_, _, h₄.symm⟩
  -- then 257 announces from `p`
  let hashes : List Hash := (List.finRange 257).map (Fin.castLE (by norm_num))
  have hlen : hashes.length = 257 := by
    rw [List.length_map, List.length_finRange]
  have hneg : undercountRun.announces "p" = -1 := by decide
  have hrec := records_notifyRun c.height "p" 0 hashes undercountRun rfl rfl
    (by rw [hlen, hneg]; decide)
  refine ⟨undercountRun, _, hrun, hneg, by decide,
    reachable_notifyRun hs c "p" 0 hashes _ hrun rfl rfl, ?_⟩
  rw [hrec, hlen, show records undercountRun "p" = 0 by decide]
  decide

end Fetcher

end Dsp
