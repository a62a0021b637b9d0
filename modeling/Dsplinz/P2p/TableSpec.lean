import Dsplinz.P2p.Table

/-!
# The shape of the Kademlia table, and its subnet counts

Whatever the table is asked to do, its buckets keep their shape (`Discover.Table.Shaped`):
every node sits in the bucket of its hash; a bucket has at most `bucketSize` entries and
`maxReplacements` replacements; and no ID occurs twice among a bucket's entries, twice among
its replacements, or among both. `Discover.Table.shaped_run` shows it of every run of
`add`, `stuff`, `delete` and revalidation from the empty table. Each of the writes it goes
through (`bump`, `pushNode`, `deleteNode`, setting the last entry) has its own lemma on the
IDs of the list it writes.

The subnet counts are another matter. They are meant to hold, for each subnet, the number
of non-LAN IPs among a bucket's entries and replacements (`Discover.BucketCounted`), but
they are changed by hand at each write, and `bump` puts a node in place of the entry of its
ID without looking at its IP. When a node comes back with an IP in another subnet, the
bucket's counts keep the old subnet and miss the new one
(`Discover.bumpOrAdd_breaks_counts`), so the subnet limit no longer holds:
`Discover.subnet_limit_exceeded` ends with three entries of one /24 in a bucket whose limit
is two. Two more writes lose the count the other way: promoting a replacement counts its IP
twice (`Discover.bumpOrAdd_promote_breaks_counts`), and deleting a node that is not an entry
still takes its IP out (`Discover.deleteInBucket_breaks_counts`).
-/

namespace Discover

open Common

/-! ### Node lists -/

section Lists

variable {l : List Node} {n : Node}

theorem mem_cons_eraseIdx {i : Nat} {x : Node} (hx : x ∈ n :: l.eraseIdx i) : x = n ∨ x ∈ l := by
  rcases List.mem_cons.mp hx with rfl | hx
  · exact .inl rfl
  · exact .inr ((List.eraseIdx_sublist l i).subset hx)

/-- Putting `n` at the front in place of the node of its ID keeps the IDs, up to order. -/
theorem map_id_cons_eraseIdx_perm {i : Nat} (hi : i < l.length) (hid : l[i].id = n.id) :
    List.Perm ((n :: l.eraseIdx i).map Node.id) (l.map Node.id) := by
  have hperm := (List.getElem_cons_eraseIdx_perm hi).map Node.id
  rw [List.map_cons, hid] at hperm
  exact hperm

theorem deleteNode_sublist (l : List Node) (n : Node) : (deleteNode l n).Sublist l := by
  unfold deleteNode
  split
  · exact List.eraseIdx_sublist l _
  · exact List.Sublist.refl l

/-- With no ID twice, `deleteNode` leaves no node of the ID of `n`. -/
theorem id_not_mem_deleteNode (hnd : (l.map Node.id).Nodup) :
    n.id ∉ (deleteNode l n).map Node.id := by
  unfold deleteNode
  split
  · rename_i i hfind
    obtain ⟨hi, hid, -⟩ := List.findIdx?_eq_some_iff_getElem.mp hfind
    have hperm := (List.getElem_cons_eraseIdx_perm hi).map Node.id
    rw [List.map_cons, (beq_iff_eq.mp hid)] at hperm
    exact (List.nodup_cons.mp (hperm.nodup_iff.mpr hnd)).1
  · rename_i hfind
    intro hmem
    obtain ⟨x, hx, hxid⟩ := List.mem_map.mp hmem
    have := List.findIdx?_eq_none_iff.mp hfind x hx
    simp [hxid] at this

theorem pushNode_fst (l : List Node) (n : Node) (max : Nat) :
    (pushNode l n max).1 = n :: (if l.length < max then l else l.dropLast) := by
  unfold pushNode
  split <;> rfl

theorem pushNode_sublist (l : List Node) (max : Nat) :
    (if l.length < max then l else l.dropLast).Sublist l := by
  split
  · exact List.Sublist.refl l
  · exact List.dropLast_sublist l

theorem length_pushNode_le {max : Nat} (hl : l.length ≤ max) (hmax : 0 < max) :
    (pushNode l n max).1.length ≤ max := by
  rw [pushNode_fst, List.length_cons]
  split
  · omega
  · rw [List.length_dropLast]
    omega

/-- Pushing a node of a new ID keeps the IDs apart. -/
theorem nodup_pushNode {max : Nat} (hnd : (l.map Node.id).Nodup)
    (hn : n.id ∉ l.map Node.id) : ((pushNode l n max).1.map Node.id).Nodup := by
  rw [pushNode_fst, List.map_cons, List.nodup_cons]
  have hsub := (pushNode_sublist l max).map Node.id
  exact ⟨fun h => hn (hsub.subset h), hsub.nodup hnd⟩

/-- With no ID twice, the node `deleteNode` takes out of a list that holds `n` is `n`. -/
theorem perm_cons_deleteNode (hn : n ∈ l) (hnd : (l.map Node.id).Nodup) :
    List.Perm (n :: deleteNode l n) l := by
  obtain ⟨j, hj, rfl⟩ := List.getElem_of_mem hn
  unfold deleteNode
  split
  · rename_i i hfind
    obtain ⟨hi, hid, -⟩ := List.findIdx?_eq_some_iff_getElem.mp hfind
    -- the IDs are distinct, so the first index of the ID of `l[j]` is `j`
    have hij : i = j := by
      have hi' : i < (l.map Node.id).length := by simpa using hi
      have hj' : j < (l.map Node.id).length := by simpa using hj
      have hmap : (l.map Node.id)[i] = (l.map Node.id)[j] := by
        simpa using beq_iff_eq.mp hid
      exact (List.Nodup.getElem_inj_iff hnd).mp hmap
    subst hij
    exact List.getElem_cons_eraseIdx_perm hi
  · rename_i hfind
    have := List.findIdx?_eq_none_iff.mp hfind l[j] (List.getElem_mem hj)
    simp at this

end Lists

/-- What `bump` does: nothing, when no entry has the ID of `n`, or it puts `n` at the front
in place of the entry of its ID. -/
theorem Bucket.bump_cases (b : Bucket) (n : Node) :
    ((b.bump n).1 = false ∧ (b.bump n).2 = b ∧ n.id ∉ b.entries.map Node.id) ∨
      ((b.bump n).1 = true ∧ ∃ i, ∃ hi : i < b.entries.length, b.entries[i].id = n.id ∧
        (b.bump n).2 = { b with entries := n :: b.entries.eraseIdx i }) := by
  unfold Bucket.bump
  split
  · rename_i i hfind
    obtain ⟨hi, hid, -⟩ := List.findIdx?_eq_some_iff_getElem.mp hfind
    exact .inr ⟨rfl, i, hi, beq_iff_eq.mp hid, rfl⟩
  · rename_i hfind
    refine .inl ⟨rfl, rfl, fun hmem => ?_⟩
    obtain ⟨x, hx, hxid⟩ := List.mem_map.mp hmem
    have := List.findIdx?_eq_none_iff.mp hfind x hx
    simp [hxid] at this

/-! ### The shape of a bucket -/

/-- What a bucket keeps, `place` giving the bucket of each ID: each of its nodes is in its
own bucket; it has at most `bucketSize` entries and `maxReplacements` replacements; and no
ID occurs twice among the entries, twice among the replacements, or among both. -/
structure BucketOk (place : NodeID → Fin nBuckets) (i : Fin nBuckets)
    (entries replacements : List Node) : Prop where
  placed : ∀ n, n ∈ entries ∨ n ∈ replacements → place n.id = i
  entries_le : entries.length ≤ bucketSize
  replacements_le : replacements.length ≤ maxReplacements
  entries_nodup : (entries.map Node.id).Nodup
  replacements_nodup : (replacements.map Node.id).Nodup
  disjoint : ∀ e ∈ entries, ∀ r ∈ replacements, r.id ≠ e.id

namespace BucketOk

variable {place : NodeID → Fin nBuckets} {i : Fin nBuckets} {entries replacements : List Node}
  (h : BucketOk place i entries replacements)
include h

theorem sublist {entries' replacements' : List Node}
    (he : entries'.Sublist entries) (hr : replacements'.Sublist replacements) :
    BucketOk place i entries' replacements' where
  placed n hn := h.placed n (hn.imp (he.subset ·) (hr.subset ·))
  entries_le := le_trans he.length_le h.entries_le
  replacements_le := le_trans hr.length_le h.replacements_le
  entries_nodup := (he.map Node.id).nodup h.entries_nodup
  replacements_nodup := (hr.map Node.id).nodup h.replacements_nodup
  disjoint e he' r hr' := h.disjoint e (he.subset he') r (hr.subset hr')

/-- A bump keeps the shape: the bumped node has the ID of the entry it replaces. -/
theorem bump {n : Node} {k : Nat} (hk : k < entries.length) (hid : entries[k].id = n.id) :
    BucketOk place i (n :: entries.eraseIdx k) replacements := by
  have hperm := map_id_cons_eraseIdx_perm hk hid
  refine ⟨fun x hx => ?_, ?_, h.replacements_le, hperm.nodup_iff.mpr h.entries_nodup,
    h.replacements_nodup, fun e he r hr => ?_⟩
  · rcases hx with hx | hx
    · rcases mem_cons_eraseIdx hx with rfl | hx
      · rw [← hid]
        exact h.placed _ (.inl (List.getElem_mem hk))
      · exact h.placed x (.inl hx)
    · exact h.placed x (.inr hx)
  · rw [List.length_cons, List.length_eraseIdx_of_lt hk]
    have := h.entries_le
    omega
  · rcases mem_cons_eraseIdx he with rfl | he
    · rw [← hid]
      exact h.disjoint _ (List.getElem_mem hk) r hr
    · exact h.disjoint e he r hr

/-- A node of a new ID, in its own bucket, added at the front of the entries of a bucket
with room, and taken out of the replacements. -/
theorem push {n : Node} (hplace : place n.id = i) (hn : n.id ∉ entries.map Node.id)
    (hroom : entries.length < bucketSize) :
    BucketOk place i (pushNode entries n bucketSize).1 (deleteNode replacements n) := by
  have hpush : (pushNode entries n bucketSize).1 = n :: entries := by
    rw [pushNode_fst, if_pos hroom]
  have hdel := deleteNode_sublist replacements n
  rw [hpush]
  refine ⟨fun x hx => ?_, ?_, le_trans hdel.length_le h.replacements_le, ?_,
    (hdel.map Node.id).nodup h.replacements_nodup, fun e he r hr => ?_⟩
  · rcases hx with hx | hx
    · rcases List.mem_cons.mp hx with rfl | hx
      · exact hplace
      · exact h.placed x (.inl hx)
    · exact h.placed x (.inr (hdel.subset hx))
  · rw [List.length_cons]
    omega
  · rw [List.map_cons]
    exact List.nodup_cons.mpr ⟨hn, h.entries_nodup⟩
  · rcases List.mem_cons.mp he with rfl | he
    · exact fun hid => id_not_mem_deleteNode h.replacements_nodup
        (List.mem_map.mpr ⟨r, hr, hid⟩)
    · exact h.disjoint e he r (hdel.subset hr)

/-- A node of a new ID, in its own bucket and not an entry, pushed onto the replacements. -/
theorem pushReplacement {n : Node} (hplace : place n.id = i) (hn : n.id ∉ entries.map Node.id)
    (hr : n.id ∉ replacements.map Node.id) :
    BucketOk place i entries (pushNode replacements n maxReplacements).1 := by
  have hsub := pushNode_sublist replacements maxReplacements
  refine ⟨fun x hx => ?_, h.entries_le, length_pushNode_le h.replacements_le (by decide),
    h.entries_nodup, nodup_pushNode h.replacements_nodup hr, fun e he r hr' => ?_⟩
  · rcases hx with hx | hx
    · exact h.placed x (.inl hx)
    · rw [pushNode_fst] at hx
      rcases List.mem_cons.mp hx with rfl | hx
      · exact hplace
      · exact h.placed x (.inr (hsub.subset hx))
  · rw [pushNode_fst] at hr'
    rcases List.mem_cons.mp hr' with rfl | hr'
    · exact fun hid => hn (List.mem_map.mpr ⟨e, he, hid.symm⟩)
    · exact h.disjoint e he r (hsub.subset hr')

/-- The replacement `r` takes the place of the last entry. -/
theorem replaceLast {r : Node} (hr : r ∈ replacements) :
    BucketOk place i (entries.set (entries.length - 1) r) (deleteNode replacements r) := by
  have hdel := deleteNode_sublist replacements r
  have hrn : r.id ∉ entries.map Node.id := fun hmem => by
    obtain ⟨e, he, hid⟩ := List.mem_map.mp hmem
    exact h.disjoint e he r hr hid.symm
  refine ⟨fun x hx => ?_, ?_, le_trans hdel.length_le h.replacements_le, ?_,
    (hdel.map Node.id).nodup h.replacements_nodup, fun e he r' hr' => ?_⟩
  · rcases hx with hx | hx
    · rcases List.mem_or_eq_of_mem_set hx with hx | rfl
      · exact h.placed x (.inl hx)
      · exact h.placed x (.inr hr)
    · exact h.placed x (.inr (hdel.subset hx))
  · rw [List.length_set]
    exact h.entries_le
  · rw [List.map_set]
    exact h.entries_nodup.set hrn
  · rcases List.mem_or_eq_of_mem_set he with he | rfl
    · exact h.disjoint e he r' (hdel.subset hr')
    · exact fun hid => id_not_mem_deleteNode h.replacements_nodup
        (List.mem_map.mpr ⟨r', hr', hid⟩)

end BucketOk

/-! ### The shape of the table -/

section Shape

variable (nodeHash : NodeID → Hash) (isLAN : List UInt8 → Bool)

/-- Every bucket of the table keeps its shape, for the bucket function of the table. -/
def Table.Shaped (tab : Table) : Prop :=
  ∀ i, BucketOk (fun id => tab.bucket nodeHash (nodeHash id)) i (tab.buckets i).entries
    (tab.buckets i).replacements

namespace Table

variable {nodeHash} {tab : Table}

@[simp] theorem self_setBucket (b : Fin nBuckets) (bk : Bucket) :
    (tab.setBucket b bk).self = tab.self := rfl

@[simp] theorem buckets_setBucket_self (b : Fin nBuckets) (bk : Bucket) :
    (tab.setBucket b bk).buckets b = bk := by
  simp [setBucket]

theorem buckets_setBucket_of_ne {b i : Fin nBuckets} (bk : Bucket) (hi : i ≠ b) :
    (tab.setBucket b bk).buckets i = tab.buckets i := by
  simp [setBucket, hi]

/-- The bucket of a hash depends on the local node only. -/
theorem bucket_eq_of_self {tab' : Table} (h : tab'.self = tab.self) (sha : Hash) :
    tab'.bucket nodeHash sha = tab.bucket nodeHash sha := by
  obtain ⟨_, self, _⟩ := tab
  obtain ⟨_, self', _⟩ := tab'
  obtain rfl : self' = self := h
  rfl

/-- A table that differs from a shaped one only in its counts is shaped. -/
theorem Shaped.congr {tab' : Table} (h : tab.Shaped nodeHash) (hself : tab'.self = tab.self)
    (hentries : ∀ i, (tab'.buckets i).entries = (tab.buckets i).entries)
    (hreplacements : ∀ i, (tab'.buckets i).replacements = (tab.buckets i).replacements) :
    tab'.Shaped nodeHash := by
  intro i
  have hplace : (fun id => tab'.bucket nodeHash (nodeHash id)) =
      fun id => tab.bucket nodeHash (nodeHash id) :=
    funext fun id => bucket_eq_of_self hself _
  rw [hplace, hentries, hreplacements]
  exact h i

theorem Shaped.setBucket (h : tab.Shaped nodeHash) {b : Fin nBuckets} {bk : Bucket}
    (hb : BucketOk (fun id => tab.bucket nodeHash (nodeHash id)) b bk.entries
      bk.replacements) : (tab.setBucket b bk).Shaped nodeHash := by
  intro i
  have hplace : (fun id => (tab.setBucket b bk).bucket nodeHash (nodeHash id)) =
      fun id => tab.bucket nodeHash (nodeHash id) :=
    funext fun id => bucket_eq_of_self rfl _
  rw [hplace]
  by_cases hi : i = b
  · subst hi
    rw [buckets_setBucket_self]
    exact hb
  · rw [buckets_setBucket_of_ne bk hi]
    exact h i

/-! #### The counts are apart from the lists -/

theorem self_addIP (b : Fin nBuckets) (ip : List UInt8) :
    (tab.addIP isLAN b ip).2.self = tab.self := by
  unfold addIP
  repeat' split
  all_goals rfl

theorem lists_addIP (tab : Table) (b i : Fin nBuckets) (ip : List UInt8) :
    ((tab.addIP isLAN b ip).2.buckets i).entries = (tab.buckets i).entries ∧
      ((tab.addIP isLAN b ip).2.buckets i).replacements = (tab.buckets i).replacements := by
  unfold addIP
  repeat' split
  all_goals try exact ⟨rfl, rfl⟩
  -- the one write to a bucket changes its counts only
  by_cases hi : i = b
  · subst hi
    simp
  · simp [buckets_setBucket_of_ne _ hi]

theorem Shaped.addIP (h : tab.Shaped nodeHash) (b : Fin nBuckets) (ip : List UInt8) :
    (tab.addIP isLAN b ip).2.Shaped nodeHash :=
  h.congr (self_addIP isLAN b ip) (fun i => (lists_addIP isLAN tab b i ip).1)
    (fun i => (lists_addIP isLAN tab b i ip).2)

theorem Shaped.removeIP (h : tab.Shaped nodeHash) (b : Fin nBuckets) (ip : List UInt8) :
    (tab.removeIP isLAN b ip).Shaped nodeHash := by
  unfold Table.removeIP
  split_ifs
  · exact h
  · refine h.congr rfl (fun i => ?_) (fun i => ?_) <;>
    · by_cases hi : i = b
      · subst hi
        simp
      · simp [buckets_setBucket_of_ne _ hi]

theorem self_bumpOrAdd (tab : Table) (b : Fin nBuckets) (n : Node) :
    (tab.bumpOrAdd isLAN b n).2.self = tab.self := by
  unfold Table.bumpOrAdd
  split
  · rfl
  · dsimp only
    split_ifs
    · rfl
    · exact self_addIP isLAN b n.ip
    · exact self_addIP isLAN b n.ip

/-! #### Each operation keeps the shape -/

section Ops

variable (h : tab.Shaped nodeHash)
include h

theorem Shaped.bump (b : Fin nBuckets) (n : Node) :
    (tab.setBucket b ((tab.buckets b).bump n).2).Shaped nodeHash := by
  rcases Bucket.bump_cases (tab.buckets b) n with ⟨-, hb, -⟩ | ⟨-, k, hk, hid, hb⟩
  · rw [hb]
    exact h.setBucket (h b)
  · rw [hb]
    exact h.setBucket ((h b).bump hk hid)

/-- `bumpOrAdd` of a node into its own bucket keeps the shape; when it answers false, the
node is not an entry. -/
theorem Shaped.bumpOrAdd {b : Fin nBuckets} {n : Node}
    (hplace : tab.bucket nodeHash (nodeHash n.id) = b) :
    (tab.bumpOrAdd isLAN b n).2.Shaped nodeHash ∧ ((tab.bumpOrAdd isLAN b n).1 = false →
      n.id ∉ ((tab.bumpOrAdd isLAN b n).2.buckets b).entries.map Node.id) := by
  unfold Table.bumpOrAdd
  rcases Bucket.bump_cases (tab.buckets b) n with ⟨hf, hb, hn⟩ | ⟨ht, k, hk, hid, hb⟩
  · rw [show (tab.buckets b).bump n = (false, tab.buckets b) from Prod.ext hf hb]
    dsimp only
    have h' := h.addIP isLAN b n.ip
    have hlists := lists_addIP isLAN tab b b n.ip
    split_ifs with hfull hok
    · exact ⟨h, fun _ => hn⟩
    · -- the subnet counts refuse the node
      exact ⟨h', fun _ => by rw [hlists.1]; exact hn⟩
    · refine ⟨h'.setBucket ((h' b).push ?_ ?_ ?_), fun hf => nomatch hf⟩
      · rw [bucket_eq_of_self (self_addIP isLAN b n.ip)]
        exact hplace
      · rw [hlists.1]
        exact hn
      · rw [hlists.1]
        omega
  · rw [show (tab.buckets b).bump n =
      (true, { tab.buckets b with entries := n :: (tab.buckets b).entries.eraseIdx k }) from
      Prod.ext ht hb]
    exact ⟨h.setBucket ((h b).bump hk hid), fun hf => nomatch hf⟩

/-- A node of its own bucket that is not an entry there, made a replacement. -/
theorem Shaped.addReplacement {b : Fin nBuckets} {n : Node}
    (hplace : tab.bucket nodeHash (nodeHash n.id) = b)
    (hn : n.id ∉ (tab.buckets b).entries.map Node.id) :
    (tab.addReplacement isLAN b n).Shaped nodeHash := by
  unfold Table.addReplacement
  split_ifs with hany
  · exact h
  · dsimp only
    have h' := h.addIP isLAN b n.ip
    have hlists := lists_addIP isLAN tab b b n.ip
    split_ifs with hok
    · exact h'
    · have hr : n.id ∉ ((tab.addIP isLAN b n.ip).2.buckets b).replacements.map Node.id := by
        rw [hlists.2]
        intro hmem
        obtain ⟨x, hx, hxid⟩ := List.mem_map.mp hmem
        exact hany (List.any_eq_true.mpr ⟨x, hx, by simp [hxid]⟩)
      have hok : BucketOk (fun id => (tab.addIP isLAN b n.ip).2.bucket nodeHash (nodeHash id)) b
          ({ (tab.addIP isLAN b n.ip).2.buckets b with
            replacements := (pushNode ((tab.addIP isLAN b n.ip).2.buckets b).replacements n
              maxReplacements).1 } : Bucket).entries
          ({ (tab.addIP isLAN b n.ip).2.buckets b with
            replacements := (pushNode ((tab.addIP isLAN b n.ip).2.buckets b).replacements n
              maxReplacements).1 } : Bucket).replacements :=
        (h' b).pushReplacement (by rw [bucket_eq_of_self (self_addIP isLAN b n.ip)]; exact hplace)
          (by rw [hlists.1]; exact hn) hr
      have h'' := h'.setBucket hok
      -- the replacement pushed out, if any, is taken out of the counts
      split
      · exact h''.removeIP isLAN b _
      · exact h''

theorem Shaped.deleteInBucket (b : Fin nBuckets) (n : Node) :
    (tab.deleteInBucket isLAN b n).Shaped nodeHash := by
  unfold Table.deleteInBucket
  have hok : BucketOk (fun id => tab.bucket nodeHash (nodeHash id)) b
      (deleteNode (tab.buckets b).entries n) (tab.buckets b).replacements :=
    (h b).sublist (deleteNode_sublist _ n) (List.Sublist.refl _)
  exact (h.setBucket hok).removeIP isLAN b n.ip

theorem Shaped.replace (b : Fin nBuckets) (last : Node) (pick : Nat) :
    (tab.replace isLAN b last pick).2.Shaped nodeHash := by
  unfold Table.replace
  dsimp only
  split
  · exact h
  · split_ifs with hid hnil
    · exact h
    · exact h.deleteInBucket isLAN b last
    · exact (h.setBucket ((h b).replaceLast (List.get_mem _ _))).removeIP isLAN b last.ip

theorem Shaped.add (n : Node) : (tab.add nodeHash isLAN n).Shaped nodeHash := by
  unfold Table.add
  obtain ⟨hshaped, hnot⟩ := h.bumpOrAdd isLAN (n := n) rfl
  have hself := self_bumpOrAdd isLAN tab (tab.bucket nodeHash (nodeHash n.id)) n
  dsimp only
  split
  · rename_i heq
    rw [heq] at hshaped
    exact hshaped
  · -- the node did not go in: it becomes a replacement
    rename_i heq
    rw [heq] at hshaped hnot hself
    exact hshaped.addReplacement isLAN (by rw [bucket_eq_of_self hself]) (hnot rfl)

theorem Shaped.delete (n : Node) : (tab.delete nodeHash isLAN n).Shaped nodeHash :=
  h.deleteInBucket isLAN _ n

theorem Shaped.revalidate (b : Fin nBuckets) (last : Node) (alive : Bool) (pick : Nat) :
    (tab.revalidate isLAN b last alive pick).Shaped nodeHash := by
  unfold Table.revalidate
  split
  · exact h.bump b last
  · exact h.replace isLAN b last pick

end Ops

theorem Shaped.stuff (h : tab.Shaped nodeHash) (nodes : List Node) :
    (tab.stuff nodeHash isLAN nodes).Shaped nodeHash := by
  induction nodes generalizing tab with
  | nil => exact h
  | cons n nodes ih =>
    refine ih ?_
    dsimp only
    -- one node: skipped if it is the local node or its bucket is full
    split_ifs
    · exact h
    · exact (h.bumpOrAdd isLAN rfl).1
    · exact h

/-- The empty table is shaped. -/
theorem shaped_new (self : Node) : (Table.new self).Shaped nodeHash := fun _ =>
  ⟨fun _ hn => by simp [Table.new] at hn, by simp [Table.new], by simp [Table.new],
    by simp [Table.new], by simp [Table.new], fun _ he => by simp [Table.new] at he⟩

theorem Shaped.apply (h : tab.Shaped nodeHash) (op : Op) :
    (op.apply nodeHash isLAN tab).Shaped nodeHash := by
  cases op with
  | add n => exact h.add isLAN n
  | stuff nodes => exact h.stuff isLAN nodes
  | delete n => exact h.delete isLAN n
  | revalidate b last alive pick => exact h.revalidate isLAN b last alive pick

/-- Every run of calls keeps the shape of the table. -/
theorem shaped_run (h : tab.Shaped nodeHash) (ops : List Op) :
    (run nodeHash isLAN tab ops).Shaped nodeHash := by
  induction ops generalizing tab with
  | nil => exact h
  | cons op ops ih => exact ih (h.apply isLAN op)

end Table

/-! ### The subnet counts -/

/-- The key of an IP depends on the prefix length only, not on the counts. -/
@[simp] theorem DistinctNetSet.key_remove (s : DistinctNetSet) (ip : List UInt8) :
    (s.remove ip).key = s.key := rfl

@[simp] theorem DistinctNetSet.key_add (s : DistinctNetSet) (ip : List UInt8) :
    (s.add ip).2.key = s.key := by
  unfold DistinctNetSet.add
  dsimp only
  split_ifs <;> rfl

/-- The subnet counts of a bucket hold, for each subnet, the number of non-LAN IPs of that
subnet among its entries and replacements. -/
def BucketCounted (bk : Bucket) : Prop :=
  ∀ k, bk.ips.members k =
    (bk.entries ++ bk.replacements).countP fun n => !isLAN n.ip && bk.ips.key n.ip == k

/-- A bump never touches the counts: when `n` takes the place of an entry of its ID whose IP
is in another subnet, a bucket whose counts were right has them wrong, one short in the
subnet of `n`. -/
theorem bumpOrAdd_breaks_counts {tab : Table} {b : Fin nBuckets} {n : Node}
    (hc : BucketCounted isLAN (tab.buckets b)) (hn : n.id ∈ (tab.buckets b).entries.map Node.id)
    (hlan : isLAN n.ip = false)
    (hkey : ∀ e ∈ (tab.buckets b).entries, e.id = n.id →
      (tab.buckets b).ips.key e.ip ≠ (tab.buckets b).ips.key n.ip) :
    ¬ BucketCounted isLAN ((tab.bumpOrAdd isLAN b n).2.buckets b) := by
  rcases Bucket.bump_cases (tab.buckets b) n with ⟨-, -, hnot⟩ | ⟨ht, i, hi, hid, hb⟩
  · exact absurd hn hnot
  · have hbo : (tab.bumpOrAdd isLAN b n).2.buckets b =
        { tab.buckets b with entries := n :: (tab.buckets b).entries.eraseIdx i } := by
      unfold Table.bumpOrAdd
      rw [show (tab.buckets b).bump n = (true, _) from Prod.ext ht hb]
      exact Table.buckets_setBucket_self b _
    rw [hbo]
    intro hc'
    -- count the subnet of `n` before and after
    set bk := tab.buckets b
    let p : Node → Bool := fun m => !isLAN m.ip && bk.ips.key m.ip == bk.ips.key n.ip
    have hpn : p n = true := by simp [p, hlan]
    have hpe : p bk.entries[i] = false := by
      simp [p, hkey _ (List.getElem_mem hi) hid]
    have hbefore : bk.ips.members (bk.ips.key n.ip) =
        (bk.entries ++ bk.replacements).countP p := hc _
    have hafter : bk.ips.members (bk.ips.key n.ip) =
        ((n :: bk.entries.eraseIdx i) ++ bk.replacements).countP p := hc' _
    have hperm : (bk.entries[i] :: bk.entries.eraseIdx i).countP p = bk.entries.countP p :=
      (List.getElem_cons_eraseIdx_perm hi).countP_eq p
    rw [List.countP_cons, hpe] at hperm
    rw [List.countP_append, List.countP_cons, hpn] at hafter
    rw [List.countP_append] at hbefore
    simp only [Bool.false_eq_true, if_false, if_true] at hperm hafter
    omega

/-- A public IP whose subnet is below the limit in the table and in the bucket is counted in
both. -/
theorem Table.addIP_of_lt (tab : Table) (b : Fin nBuckets) (ip : List UInt8)
    (hlan : isLAN ip = false) (ht : tab.ips.members (tab.ips.key ip) < tab.ips.limit)
    (hb : (tab.buckets b).ips.members ((tab.buckets b).ips.key ip) < (tab.buckets b).ips.limit) :
    tab.addIP isLAN b ip =
      (true, { tab.setBucket b { tab.buckets b with ips := ((tab.buckets b).ips.add ip).2 } with
        ips := (tab.ips.add ip).2 }) := by
  have hta : tab.ips.add ip = (true, (tab.ips.add ip).2) := by
    simp [DistinctNetSet.add, ht]
  have hba : (tab.buckets b).ips.add ip = (true, ((tab.buckets b).ips.add ip).2) := by
    simp [DistinctNetSet.add, hb]
  unfold Table.addIP
  rw [hlan, hta, hba]
  rfl

/-- Promoting a replacement counts its IP a second time: `bumpOrAdd` adds the IP of `n` to
the counts, and takes `n` out of the replacements without taking its IP out. A bucket whose
counts were right has them one too many in the subnet of `n`. -/
theorem bumpOrAdd_promote_breaks_counts {tab : Table} {b : Fin nBuckets} {n : Node}
    (hc : BucketCounted isLAN (tab.buckets b)) (hn : n ∈ (tab.buckets b).replacements)
    (hnd : ((tab.buckets b).replacements.map Node.id).Nodup)
    (hne : n.id ∉ (tab.buckets b).entries.map Node.id)
    (hroom : (tab.buckets b).entries.length < bucketSize) (hlan : isLAN n.ip = false)
    (ht : tab.ips.members (tab.ips.key n.ip) < tab.ips.limit)
    (hb : (tab.buckets b).ips.members ((tab.buckets b).ips.key n.ip) <
      (tab.buckets b).ips.limit) :
    ¬ BucketCounted isLAN ((tab.bumpOrAdd isLAN b n).2.buckets b) := by
  set bk := tab.buckets b with hbk_def
  have hbump : bk.bump n = (false, bk) := by
    rcases Bucket.bump_cases bk n with ⟨h1, h2, -⟩ | ⟨-, i, hi, hid, -⟩
    · exact Prod.ext h1 h2
    · exact absurd (List.mem_map.mpr ⟨_, List.getElem_mem hi, hid⟩) hne
  have hbo : (tab.bumpOrAdd isLAN b n).2.buckets b =
      { bk with
        ips := (bk.ips.add n.ip).2
        entries := n :: bk.entries
        replacements := deleteNode bk.replacements n } := by
    unfold Table.bumpOrAdd
    rw [← hbk_def, hbump]
    dsimp only
    rw [if_neg (by omega), Table.addIP_of_lt isLAN tab b n.ip hlan ht hb]
    simp [pushNode, hroom, ← hbk_def]
  rw [hbo]
  intro hc'
  -- count the subnet of `n` before and after
  let p : Node → Bool := fun m => !isLAN m.ip && bk.ips.key m.ip == bk.ips.key n.ip
  have hpn : p n = true := by simp [p, hlan]
  have hbefore : bk.ips.members (bk.ips.key n.ip) =
      (bk.entries ++ bk.replacements).countP p := hc _
  have hafter : (bk.ips.add n.ip).2.members (bk.ips.key n.ip) =
      ((n :: bk.entries) ++ deleteNode bk.replacements n).countP p := by
    simpa using hc' (bk.ips.key n.ip)
  have hadd : (bk.ips.add n.ip).2.members (bk.ips.key n.ip) =
      bk.ips.members (bk.ips.key n.ip) + 1 := by
    simp [DistinctNetSet.add, hb]
  have hperm : (n :: deleteNode bk.replacements n).countP p = bk.replacements.countP p :=
    (perm_cons_deleteNode hn hnd).countP_eq p
  rw [List.countP_cons, hpn] at hperm
  rw [List.countP_append, List.countP_cons, hpn] at hafter
  rw [List.countP_append] at hbefore
  simp only [if_true] at hperm hafter
  omega

/-- `deleteInBucket` takes the IP of its argument out of the counts, also when the node is
not an entry: the counts of a bucket that were right go wrong, one short. -/
theorem deleteInBucket_breaks_counts {tab : Table} {b : Fin nBuckets} {n : Node}
    (hc : BucketCounted isLAN (tab.buckets b)) (hn : n.id ∉ (tab.buckets b).entries.map Node.id)
    (hlan : isLAN n.ip = false) (hpos : 0 < (tab.buckets b).ips.members ((tab.buckets b).ips.key n.ip)) :
    ¬ BucketCounted isLAN ((tab.deleteInBucket isLAN b n).buckets b) := by
  have hdel : deleteNode (tab.buckets b).entries n = (tab.buckets b).entries := by
    unfold deleteNode
    split
    · rename_i i hfind
      obtain ⟨hi, hid, -⟩ := List.findIdx?_eq_some_iff_getElem.mp hfind
      exact absurd (List.mem_map.mpr ⟨_, List.getElem_mem hi, beq_iff_eq.mp hid⟩) hn
    · rfl
  set bk := tab.buckets b
  have hbk : (tab.deleteInBucket isLAN b n).buckets b =
      { bk with ips := bk.ips.remove n.ip } := by
    simp [Table.deleteInBucket, Table.removeIP, hlan, hdel, bk]
  rw [hbk]
  intro hc'
  have hbefore := hc (bk.ips.key n.ip)
  have hafter := hc' (bk.ips.key n.ip)
  rw [DistinctNetSet.key_remove] at hafter
  simp only [DistinctNetSet.remove, Function.update_self] at hafter
  omega

end Shape

/-! A node that comes back with an IP in another subnet, and two more nodes of that subnet.
The IPs are public (`netutil.IsLAN` is false on them), and the hash puts every node in the
first bucket. -/

namespace IpChange

def nodeHash (_ : NodeID) : Hash := 0

def isLAN (_ : List UInt8) : Bool := false

def self : Node := ⟨0, [8, 8, 8, 8]⟩

def ops : List Op :=
  [.add ⟨1, [1, 1, 1, 1]⟩, .add ⟨1, [2, 2, 2, 2]⟩, .add ⟨2, [2, 2, 2, 3]⟩,
    .add ⟨3, [2, 2, 2, 4]⟩]

/-- The first bucket once the operations have run. -/
def bucket : Bucket :=
  (run nodeHash isLAN (Table.new self) ops).buckets ⟨0, nBuckets_pos⟩

end IpChange

/-- After node 1 comes back from `1.1.1.1` at `2.2.2.2`, and nodes 2 and 3 of `2.2.2.0/24`
are added, the first bucket holds three entries of `2.2.2.0/24`, over its limit of two; its
counts say two there, and one in `1.1.1.0/24`, where it holds none. -/
theorem subnet_limit_exceeded :
    IpChange.bucket.entries.countP
        (fun n => IpChange.bucket.ips.key n.ip == [52, 2, 2, 2]) = 3 ∧
      bucketIPLimit = 2 ∧ IpChange.bucket.ips.members [52, 2, 2, 2] = 2 ∧
      IpChange.bucket.entries.countP
        (fun n => IpChange.bucket.ips.key n.ip == [52, 1, 1, 1]) = 0 ∧
      IpChange.bucket.ips.members [52, 1, 1, 1] = 1 := by
  decide +kernel

end Discover
