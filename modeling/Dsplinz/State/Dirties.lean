import Dsplinz.State.Snapshot

/-!
# The journal's dirty counters

`journal.dirties` counts, for each address, the changes that made it dirty: `append` adds one
for an entry whose `dirtied()` is the address, `revert` takes one away for each entry it
undoes, deleting the address when its count reaches `0`, and `dirty` adds one with no entry,
for the RIPEMD precompile that `touch` marks (`State.ripemd`). `Finalise`, `Commit` and `Copy`
take the accounts they write or copy from the addresses the map holds.

The count of an address is the number of live entries that dirtied it and of the explicit
`dirty` calls, which no `revert` takes back (`State.StateDB.Counts`). Each call keeps that:

| call | theorem |
|---|---|
| `append` | `State.StateDB.counts_append` |
| `dirty` | `State.StateDB.counts_dirty` |
| one round of the loop of `revert` | `State.StateDB.revertOne_counts` |
| `revert` | `State.StateDB.counts_revertJournal` |
| a sequence of calls | `State.StateDB.counts_runCalls` |

The model reads the map as a function, `0` standing for an address the map does not hold.
The Go map holds a key at `0` only after `m[k]++` of a negative count, and a negative count
only after `m[k]--` of a key it does not hold. Every round of the loop of `revert` decrements a
count of at least `1` (`State.StateDB.revertOne_counts`), so neither happens, and the map holds
an address exactly when its count here is not `0`.
-/

namespace State

open Common

namespace StateDB

/-! ### The invariant -/

/-- The entries of `es` whose `dirtied()` is `a`. -/
def dirtyCount (es : List JournalEntry) (a : Address) : Nat :=
  es.countP fun e => e.dirtied = some a

/-- **The dirty-count invariant**: the count of every address is the number of entries of
`es` that dirtied it, and of `explicit a` explicit `dirty` calls. -/
def Counts (es : List JournalEntry) (explicit : Address → Nat) (dirties : Address → Int) :
    Prop :=
  ∀ a, dirties a = ((dirtyCount es a + explicit a : Nat) : Int)

theorem dirtyCount_append (es : List JournalEntry) (e : JournalEntry) (a : Address) :
    dirtyCount (es ++ [e]) a = dirtyCount es a + if e.dirtied = some a then 1 else 0 := by
  simp [dirtyCount, List.countP_append]

section Counts

variable {es : List JournalEntry} {explicit : Address → Nat} {dirties : Address → Int}

theorem Counts.nonneg (h : Counts es explicit dirties) (a : Address) : 0 ≤ dirties a := by
  rw [h a]
  omega

/-- An address with no explicit `dirty` call has a count exactly when a live entry dirtied
it. -/
theorem Counts.ne_zero_iff (h : Counts es explicit dirties) {a : Address} (ha : explicit a = 0) :
    dirties a ≠ 0 ↔ ∃ e ∈ es, e.dirtied = some a := by
  rw [h a, ha, Nat.add_zero, Nat.cast_ne_zero, dirtyCount, ← Nat.pos_iff_ne_zero,
    List.countP_pos_iff]
  simp

end Counts

/-! ### The calls -/

section Calls

variable {explicit : Address → Nat}

theorem counts_append {s : StateDB} (h : Counts s.journal.entries explicit s.journal.dirties)
    (e : JournalEntry) :
    Counts (s.append e).journal.entries explicit (s.append e).journal.dirties := by
  intro a
  have hentries : (s.append e).journal.entries = s.journal.entries ++ [e] := rfl
  rw [hentries, dirtyCount_append]
  -- the entry bumps the count of the address it dirties, if any
  cases hd : e.dirtied with
  | none =>
    simp only [StateDB.append, hd]
    rw [h a]
    simp
  | some b =>
    simp only [StateDB.append, hd]
    by_cases hab : a = b
    · subst hab
      rw [Function.update_self, h a, if_pos rfl]
      push_cast
      omega
    · rw [Function.update_of_ne hab, h a, if_neg fun h => hab (Option.some.inj h).symm]
      rfl

theorem counts_dirty {s : StateDB} (h : Counts s.journal.entries explicit s.journal.dirties)
    (a : Address) :
    Counts (s.dirty a).journal.entries (Function.update explicit a (explicit a + 1))
      (s.dirty a).journal.dirties := by
  intro b
  change Function.update s.journal.dirties a (s.journal.dirties a + 1) b =
    ((dirtyCount s.journal.entries b + Function.update explicit a (explicit a + 1) b : Nat) : Int)
  by_cases hba : b = a
  · subst hba
    rw [Function.update_self, Function.update_self, h b]
    push_cast
    omega
  · rw [Function.update_of_ne hba, Function.update_of_ne hba, h b]

/-- `journalEntry.revert` leaves the journal alone. -/
theorem journal_revertEntry {s t : StateDB} {e : JournalEntry} (hr : s.revertEntry e = .ok t) :
    t.journal = s.journal := by
  cases e with
  | suicideChange a prev prevbalance =>
    simp only [revertEntry] at hr
    have hl := journal_getStateObject s a
    rcases hg : s.getStateObject a with ⟨_ | o, s₁⟩ <;> rw [hg] at hr hl <;> cases hr <;> exact hl
  | balanceChange | nonceChange | codeChange | storageChange =>
    obtain ⟨o, -, rfl⟩ := withObject_ok hr
    exact journal_getStateObject s _
  | addLogChange txhash =>
    simp only [revertEntry] at hr
    split_ifs at hr <;> cases hr <;> rfl
  | createObjectChange | resetObjectChange | touchChange | refundChange | addPreimageChange =>
    cases hr
    rfl

/-- **One round of the loop of `revert`** undoes the last entry, and takes one from the count
of the address it dirtied, which is at least `1`. -/
theorem revertOne_counts {pre : List JournalEntry} {e : JournalEntry} {s t : StateDB}
    (h : Counts (pre ++ [e]) explicit s.journal.dirties) (hr : revertOne e s = .ok t) :
    Counts pre explicit t.journal.dirties ∧ t.journal.entries = s.journal.entries ∧
      ∀ a, e.dirtied = some a → 1 ≤ s.journal.dirties a := by
  unfold revertOne at hr
  rcases he : s.revertEntry e with p | s₁ <;> rw [he] at hr
  · cases hr
  have hj := journal_revertEntry he
  simp only [bind, Except.bind, pure, Except.pure, Except.ok.injEq] at hr
  subst hr
  refine ⟨fun a => ?_, ?_, fun a ha => ?_⟩
  · have ha := h a
    rw [dirtyCount_append] at ha
    cases hd : e.dirtied with
    | none =>
      simp only [hj]
      rw [ha, hd]
      simp
    | some b =>
      change Function.update s₁.journal.dirties b (s₁.journal.dirties b - 1) a = _
      rw [hj]
      by_cases hab : a = b
      · subst hab
        rw [Function.update_self, ha, hd, if_pos rfl]
        push_cast
        omega
      · rw [Function.update_of_ne hab, ha, hd, if_neg fun h => hab (Option.some.inj h).symm]
        rfl
  · have hentries := congrArg Journal.entries hj
    split <;> exact hentries
  · -- the count includes this entry
    rw [h a, dirtyCount_append, ha, if_pos rfl]
    push_cast
    omega

/-- The loop of `revert` over the entries `es` after `pre` leaves the counts of `pre`. -/
theorem revertEntries_counts : ∀ {es pre : List JournalEntry} {s t : StateDB},
    Counts (pre ++ es) explicit s.journal.dirties → revertEntries es s = .ok t →
      Counts pre explicit t.journal.dirties ∧ t.journal.entries = s.journal.entries
  | [], pre, s, t, h, hr => by
    cases hr
    exact ⟨by simpa using h, rfl⟩
  | e :: es, pre, s, t, h, hr => by
    rw [revertEntries] at hr
    rcases h₁ : revertEntries es s with p | s₁ <;> rw [h₁] at hr
    · cases hr
    -- the later entries are undone first
    have h' : Counts ((pre ++ [e]) ++ es) explicit s.journal.dirties := by simpa using h
    obtain ⟨hc₁, he₁⟩ := revertEntries_counts h' h₁
    obtain ⟨hc, he, -⟩ := revertOne_counts hc₁ hr
    exact ⟨hc, he.trans he₁⟩

/-- **`revert` keeps the invariant**, for every snapshot. -/
theorem counts_revertJournal {s t : StateDB}
    (h : Counts s.journal.entries explicit s.journal.dirties) {n : Nat}
    (hr : s.revertJournal n = .ok t) : Counts t.journal.entries explicit t.journal.dirties := by
  unfold revertJournal at hr
  rcases h₁ : revertEntries (s.journal.entries.drop n) s with p | s' <;> rw [h₁] at hr
  · cases hr
  simp only [bind, Except.bind, pure, Except.pure, Except.ok.injEq] at hr
  subst hr
  have h' : Counts (s.journal.entries.take n ++ s.journal.entries.drop n) explicit
      s.journal.dirties := by
    rw [List.take_append_drop]
    exact h
  obtain ⟨hc, he⟩ := revertEntries_counts h' h₁
  change Counts (s'.journal.entries.take n) explicit s'.journal.dirties
  rw [he]
  exact hc

end Calls

/-! ### Sequences of calls -/

/-- A call on the journal. -/
inductive JournalCall where
  | append (entry : JournalEntry)
  | dirty (addr : Address)
  | revert (snapshot : Nat)

/-- The call, a panic of an entry's `revert` being an error. -/
def JournalCall.run : JournalCall → StateDB → Except Panic StateDB
  | .append entry, s => .ok (s.append entry)
  | .dirty addr, s => .ok (s.dirty addr)
  | .revert snapshot, s => s.revertJournal snapshot

/-- The calls one after another. -/
def runCalls : List JournalCall → StateDB → Except Panic StateDB
  | [], s => .ok s
  | c :: cs, s => (c.run s).bind (runCalls cs)

/-- Whether a call is `dirty(a)`. -/
def JournalCall.isDirty (a : Address) : JournalCall → Bool
  | .dirty addr => decide (addr = a)
  | _ => false

/-- The explicit `dirty(a)` calls among `calls`. -/
def explicitDirties (calls : List JournalCall) (a : Address) : Nat :=
  calls.countP (JournalCall.isDirty a)

/-- One call keeps the invariant, counting its explicit `dirty` call. -/
theorem counts_run {explicit : Address → Nat} {s t : StateDB}
    (h : Counts s.journal.entries explicit s.journal.dirties) {c : JournalCall}
    (hr : c.run s = .ok t) :
    Counts t.journal.entries (fun a => explicit a + if c.isDirty a then 1 else 0)
      t.journal.dirties := by
  cases c with
  | append e =>
    cases hr
    simpa [JournalCall.isDirty] using counts_append h e
  | dirty addr =>
    cases hr
    have hc := counts_dirty h addr
    intro a
    rw [hc a]
    by_cases ha : a = addr
    · subst ha
      simp [JournalCall.isDirty]
    · simp [JournalCall.isDirty, Function.update_of_ne ha, Ne.symm ha]
  | revert n => simpa [JournalCall.isDirty] using counts_revertJournal h hr

/-- **Every sequence of calls keeps the invariant**, counting its explicit `dirty` calls.
The induction is on the calls. -/
theorem counts_runCalls : ∀ {calls : List JournalCall} {explicit : Address → Nat} {s t : StateDB},
    Counts s.journal.entries explicit s.journal.dirties → runCalls calls s = .ok t →
      Counts t.journal.entries (fun a => explicit a + explicitDirties calls a) t.journal.dirties
  | [], explicit, s, t, h, hr => by
    cases hr
    simpa [explicitDirties] using h
  | c :: cs, explicit, s, t, h, hr => by
    rw [runCalls] at hr
    rcases h₁ : c.run s with p | s₁ <;> rw [h₁] at hr
    · cases hr
    have hc := counts_runCalls (counts_run h h₁) hr
    intro a
    rw [hc a]
    simp only [explicitDirties, List.countP_cons]
    omega

/-- **The dirty counts are exact**: from a journal whose counts are those of its entries,
after every sequence of `append`, `dirty` and `revert` calls, the count of an address is the
number of live entries that dirtied it and of the explicit `dirty` calls made for it; no count
is negative; and an address with no explicit `dirty` call has a count exactly when a live
entry dirtied it. -/
theorem dirties_exact {s t : StateDB}
    (h₀ : ∀ a, s.journal.dirties a = dirtyCount s.journal.entries a)
    {calls : List JournalCall} (hrun : runCalls calls s = .ok t) :
    (∀ a, t.journal.dirties a = dirtyCount t.journal.entries a + explicitDirties calls a) ∧
      (∀ a, 0 ≤ t.journal.dirties a) ∧
      (∀ a, explicitDirties calls a = 0 →
        (t.journal.dirties a ≠ 0 ↔ ∃ e ∈ t.journal.entries, e.dirtied = some a)) := by
  have hstart : Counts s.journal.entries (fun _ => 0) s.journal.dirties := fun a => by
    simp [h₀ a]
  have hc := counts_runCalls hstart hrun
  simp only [Nat.zero_add] at hc
  refine ⟨fun a => ?_, hc.nonneg, fun a ha => hc.ne_zero_iff ha⟩
  rw [hc a]
  push_cast
  rfl

/-- A created object, an explicit `dirty` of `3`, a touch of `2`, and a revert of the touch. -/
def someCalls : List JournalCall :=
  [.append (.createObjectChange 1), .dirty 3, .append (.touchChange 2 false false), .revert 1]

/-- The state `someCalls` leaves, from a new one. -/
def afterSomeCalls : StateDB :=
  match runCalls someCalls (new ⟨fun _ _ => 0, fun _ => []⟩ fun _ => none) with
  | .ok t => t
  | .error _ => new ⟨fun _ _ => 0, fun _ => []⟩ fun _ => none

theorem dirties_exact_someCalls :
    (∀ a, (new ⟨fun _ _ => 0, fun _ => []⟩ fun _ => none).journal.dirties a =
      dirtyCount (new ⟨fun _ _ => 0, fun _ => []⟩ fun _ => none).journal.entries a) ∧
    runCalls someCalls (new ⟨fun _ _ => 0, fun _ => []⟩ fun _ => none) = .ok afterSomeCalls ∧
    ((∀ a, afterSomeCalls.journal.dirties a =
        dirtyCount afterSomeCalls.journal.entries a + explicitDirties someCalls a) ∧
      (∀ a, 0 ≤ afterSomeCalls.journal.dirties a) ∧
      (∀ a, explicitDirties someCalls a = 0 →
        (afterSomeCalls.journal.dirties a ≠ 0 ↔
          ∃ e ∈ afterSomeCalls.journal.entries, e.dirtied = some a))) := by
  have hrun : runCalls someCalls (new ⟨fun _ _ => 0, fun _ => []⟩ fun _ => none) =
      .ok afterSomeCalls := rfl
  exact ⟨fun _ => rfl, hrun, dirties_exact (fun _ => rfl) hrun⟩

/-- The revert undoes the touch of `2`; the created `1` and the explicit `3` stay dirty. -/
example : afterSomeCalls.journal.dirties 1 = 1 ∧ afterSomeCalls.journal.dirties 2 = 0 ∧
    afterSomeCalls.journal.dirties 3 = 1 := by
  decide

/-! ### `touch` -/

/-- The journal calls of `stateObject.touch()` on `o`. -/
def touchCalls (o : StateObject) : List JournalCall :=
  .append (.touchChange o.address false false) ::
    if o.address = ripemd then [.dirty o.address] else []

theorem runCalls_touchCalls (s : StateDB) (o : StateObject) :
    runCalls (touchCalls o) s = .ok (s.touch o) := by
  unfold touchCalls touch
  split_ifs <;> rfl

/-- `touch` makes explicit `dirty` calls for the RIPEMD precompile only. -/
theorem explicitDirties_touchCalls (o : StateObject) {a : Address} (ha : a ≠ ripemd) :
    explicitDirties (touchCalls o) a = 0 := by
  unfold explicitDirties touchCalls
  split_ifs with h
  · simp [JournalCall.isDirty, h, Ne.symm ha]
  · simp [JournalCall.isDirty]

end StateDB

end State
