import Dsplinz.Common.Basic

/-!
# The chain indexer

`core/chain_indexer.go`: a `ChainIndexer` post-processes the canonical chain in sections of
`sectionSize` blocks through a `ChainIndexerBackend` (the bloom-bits indexer, and on light
clients the CHT and bloom-trie indexers). For a section it calls the backend's `Reset`, then
`Process` on each header of the section in order, checking that each links to the one
before, and then `Commit` (`processSection`). A section whose processing succeeds is stored,
with the hash of its last header as its section head.

The indexer is a state machine over two events (`Core.ChainIndexer.Step`): a new chain head
(`newHead`), which raises the number of known sections or, on a reorg, drops the sections
past the reorg point, and a round of `updateLoop` (`updateRound`), which processes the next
section when one is known and not stored. The model is generic in the backend, whose state
`σ` holds what it has written to the database, and in the header type `H`, read through its
parent hash and its hash. The chain is read through `ReadCanonicalHash` and `ReadHeader`
(`Core.ChainIndexer.Reader`). The index database holds the count of valid sections, which is
`storedSections`, and the section heads, a function. The lock, the goroutines and timers,
the log lines, the children and `cascadedHead` are not modelled, nor is
`AddKnownSectionHead`, which light clients call to take a section over from a peer. A nil
header dereferenced panics (`none`).

Whatever the backend, an update round either stores the next section with the head that its
processing returned, or stores nothing new (`Core.ChainIndexer.updateRound_cases`); and a
new head only ever drops stored sections (`Core.ChainIndexer.newHead_cases`). So a property
of the backend's state that a successful processing gives its section, and that processing
another section keeps, holds of every stored section in every run
(`Core.ChainIndexer.indexed_of_reachable`).
-/

namespace Core

open Common

/-- `ChainIndexerBackend`, over the backend's state: `Reset` may fail, `Process` may panic,
and `Commit` may panic or fail, each leaving a new state. -/
structure ChainIndexerBackend (σ ε H : Type) where
  reset : σ → Nat → Hash → σ × Option ε
  process : σ → H → Option σ
  commit : σ → Option (σ × Option ε)

/-- `ChainIndexer`, with the state of its backend. -/
structure ChainIndexer (σ : Type) where
  backend : σ
  sectionSize : Nat
  confirmsReq : Nat
  storedSections : Nat
  knownSections : Nat
  sectionHeads : Nat → Option Hash

namespace ChainIndexer

variable {σ ε H : Type}

/-- What the indexer reads of the chain database: `ReadCanonicalHash`, the zero hash for a
number that has none, and `ReadHeader`. -/
structure Reader (H : Type) where
  canonicalHash : Nat → Hash
  readHeader : Hash → Nat → Option H

/-- The errors of `processSection`. -/
inductive SectionError (ε : Type) where
  /-- The backend's `Reset` or `Commit` failed. -/
  | backend (err : ε)
  /-- `canonical block #%d unknown`. -/
  | canonicalUnknown (number : Nat)
  /-- `block #%d [%x…] not found`. -/
  | blockNotFound (number : Nat) (hash : Hash)
  /-- `chain reorged during section processing`. -/
  | reorged

/-- `NewChainIndexer`: the count of valid sections and their heads come from the index
database; no section is known yet. -/
def new (backend : σ) (sectionSize confirmsReq storedSections : Nat)
    (sectionHeads : Nat → Option Hash) : ChainIndexer σ :=
  { backend, sectionSize, confirmsReq, storedSections, knownSections := 0, sectionHeads }

/-- `SectionHead(section)`: the zero hash when the section has none. -/
def sectionHead (c : ChainIndexer σ) (sec : Nat) : Hash := (c.sectionHeads sec).getD 0

/-- `Sections()`: the stored sections, the last block they cover and the head of the last
one, in `uint64` arithmetic. -/
def sections (c : ChainIndexer σ) : Nat × Nat × Hash :=
  (c.storedSections, (c.storedSections * c.sectionSize + (2 ^ 64 - 1)) % 2 ^ 64,
    c.sectionHead ((c.storedSections + (2 ^ 64 - 1)) % 2 ^ 64))

/-- `setSectionHead(section, hash)`. -/
def setSectionHead (c : ChainIndexer σ) (sec : Nat) (hash : Hash) : ChainIndexer σ :=
  { c with sectionHeads := Function.update c.sectionHeads sec (some hash) }

/-- `setValidSections(sections)`: the heads of the sections from `sections` to the stored
count are removed. -/
def setValidSections (c : ChainIndexer σ) (sections : Nat) : ChainIndexer σ :=
  { c with
    storedSections := sections
    sectionHeads := fun k =>
      if sections ≤ k ∧ k < c.storedSections then none else c.sectionHeads k }

@[simp] theorem backend_setSectionHead (c : ChainIndexer σ) (sec : Nat) (hash : Hash) :
    (c.setSectionHead sec hash).backend = c.backend := rfl

@[simp] theorem storedSections_setSectionHead (c : ChainIndexer σ) (sec : Nat) (hash : Hash) :
    (c.setSectionHead sec hash).storedSections = c.storedSections := rfl

theorem sectionHeads_setSectionHead (c : ChainIndexer σ) (sec : Nat) (hash : Hash) :
    (c.setSectionHead sec hash).sectionHeads = Function.update c.sectionHeads sec (some hash) := rfl

@[simp] theorem backend_setValidSections (c : ChainIndexer σ) (sections : Nat) :
    (c.setValidSections sections).backend = c.backend := rfl

@[simp] theorem storedSections_setValidSections (c : ChainIndexer σ) (sections : Nat) :
    (c.setValidSections sections).storedSections = sections := rfl

theorem sectionHeads_setValidSections (c : ChainIndexer σ) (sections k : Nat) :
    (c.setValidSections sections).sectionHeads k =
      if sections ≤ k ∧ k < c.storedSections then none else c.sectionHeads k := rfl

/-- `newHead(head, reorg)`: on a reorg the known and stored sections are cut back to the
section of `head`; otherwise the sections with `confirmsReq` confirmations become known. -/
def newHead (c : ChainIndexer σ) (head : Nat) (reorg : Bool) : ChainIndexer σ :=
  if reorg then
    -- revert the known and the stored sections to the reorg point
    let changed := head / c.sectionSize
    let c := if changed < c.knownSections then { c with knownSections := changed } else c
    if changed < c.storedSections then c.setValidSections changed else c
  else if head ≥ c.confirmsReq then
    let sections := (head + 1 - c.confirmsReq) / c.sectionSize
    if sections > c.knownSections then { c with knownSections := sections } else c
  else c

theorem sectionSize_newHead (c : ChainIndexer σ) (head : Nat) (reorg : Bool) :
    (c.newHead head reorg).sectionSize = c.sectionSize := by
  unfold newHead
  split
  · dsimp only
    split <;> split <;> rfl
  · split
    · dsimp only
      split <;> rfl
    · rfl

section Process

variable (backend : ChainIndexerBackend σ ε H) (chain : Reader H) (parentHash hashOf : H → Hash)

/-- The loop of `processSection` over the numbers of the section, from the hash of the last
header processed: the backend after it, and the hash of the last header. -/
def processLoop : σ → Hash → List Nat → Option (σ × Except (SectionError ε) Hash)
  | s, lastHead, [] => some (s, .ok lastHead)
  | s, lastHead, number :: rest =>
    let hash := chain.canonicalHash number
    if hash = 0 then some (s, .error (.canonicalUnknown number))
    else
      match chain.readHeader hash number with
      | none => some (s, .error (.blockNotFound number hash))
      | some header =>
        if parentHash header ≠ lastHead then some (s, .error .reorged)
        else
          match backend.process s header with
          | none => none
          | some s => processLoop s (hashOf header) rest

/-- `processSection(section, lastHead)`: the indexer after it, whose backend has processed
the section (a failed `Reset` also drops every stored section), and the hash of the
section's last header. -/
def processSection (c : ChainIndexer σ) (sec : Nat) (lastHead : Hash) :
    Option (ChainIndexer σ × Except (SectionError ε) Hash) :=
  match backend.reset c.backend sec lastHead with
  | (s, some err) => some (({ c with backend := s } : ChainIndexer σ).setValidSections 0, .error (.backend err))
  | (s, none) =>
    match processLoop backend chain parentHash hashOf s lastHead
        (List.range' (sec * c.sectionSize) c.sectionSize) with
    | none => none
    | some (s, .error err) => some ({ c with backend := s }, .error err)
    | some (s, .ok lastHead) =>
      match backend.commit s with
      | none => none
      | some (s, some err) => some ({ c with backend := s }, .error (.backend err))
      | some (s, none) => some ({ c with backend := s }, .ok lastHead)

/-- The heads `updateLoop` starts a section from: the head of the section before (the zero
hash if it has none), or for the first section the parent of the genesis header, which must
be there; and the genesis parent it checks against. -/
def startHeads (c : ChainIndexer σ) (sec : Nat) : Option (Hash × Hash) :=
  if sec > 0 then some (c.sectionHead (sec - 1), 0)
  else (chain.readHeader (chain.canonicalHash 0) 0).map fun genesis => (parentHash genesis, parentHash genesis)

/-- A round of `updateLoop` on an update notification: the next section, if it is known,
is processed, and stored if that succeeds and its start is still the head of the section
before; otherwise no more sections are known until the next head. -/
def updateRound (c : ChainIndexer σ) : Option (ChainIndexer σ) :=
  if c.knownSections > c.storedSections then
    let sec := c.storedSections
    match startHeads chain parentHash c sec with
    | none => none
    | some (oldHead, initParent) =>
      match processSection backend chain parentHash hashOf c sec oldHead with
      | none => none
      | some (c, .ok newHead) =>
        -- if processing succeeded and no reorgs occurred, mark the section completed
        if sec > 0 ∧ oldHead = c.sectionHead (sec - 1) ∨ sec = 0 ∧ oldHead = initParent then
          some ((c.setSectionHead sec newHead).setValidSections (sec + 1))
        else some { c with knownSections := c.storedSections }
      | some (c, .error _) => some { c with knownSections := c.storedSections }
  else some c

/-- The indexer's transitions: a new head, and a round of the update loop that does not
panic. -/
inductive Step : ChainIndexer σ → ChainIndexer σ → Prop
  | newHead (c : ChainIndexer σ) (head : Nat) (reorg : Bool) : Step c (c.newHead head reorg)
  | update {c c' : ChainIndexer σ} : updateRound backend chain parentHash hashOf c = some c' → Step c c'

/-- The states a run of the indexer reaches from `c`. -/
def Reachable (c : ChainIndexer σ) : ChainIndexer σ → Prop :=
  Relation.ReflTransGen (Step backend chain parentHash hashOf) c

/-! ### What a section's processing changes -/

/-- A run of `processLoop` that does not panic leaves the backend in a state that processing
headers, one at a time, reaches. -/
theorem processLoop_backend :
    ∀ {s s' : σ} {lastHead : Hash} {ns : List Nat} {r : Except (SectionError ε) Hash},
      processLoop backend chain parentHash hashOf s lastHead ns = some (s', r) →
        Relation.ReflTransGen (fun a b => ∃ header, backend.process a header = some b) s s'
  | s, s', lastHead, [], r, h => by
    rw [processLoop] at h
    cases h
    exact .refl
  | s, s', lastHead, n :: rest, r, h => by
    rw [processLoop] at h
    split at h
    · cases h
      exact .refl
    · split at h
      · cases h
        exact .refl
      · next header _ =>
        split at h
        · cases h
          exact .refl
        · split at h
          · cases h
          · next s₁ hproc =>
            exact .head ⟨header, hproc⟩ (processLoop_backend h)

/-- **A loop that succeeds** found each number's canonical hash and header, checked the
link to the header before and processed the header. -/
theorem processLoop_cons_ok {s s' : σ} {lastHead newHead : Hash} {n : Nat} {rest : List Nat}
    (h : processLoop backend chain parentHash hashOf s lastHead (n :: rest) = some (s', .ok newHead)) :
    ∃ header s₁, chain.canonicalHash n ≠ 0 ∧ chain.readHeader (chain.canonicalHash n) n = some header ∧
      parentHash header = lastHead ∧ backend.process s header = some s₁ ∧
      processLoop backend chain parentHash hashOf s₁ (hashOf header) rest = some (s', .ok newHead) := by
  rw [processLoop] at h
  split at h
  · cases h
  · next hhash =>
    split at h
    · cases h
    · next header hread =>
      split at h
      · cases h
      · next hparent =>
        split at h
        · cases h
        · next s₁ hproc =>
          exact ⟨header, s₁, hhash, hread, not_not.mp hparent, hproc, h⟩

/-- **A section processed with success**: `Reset` succeeded, the loop over the section's
numbers succeeded with the head returned, and `Commit` succeeded; only the backend changed. -/
theorem processSection_ok {c d : ChainIndexer σ} {sec : Nat} {lastHead newHead : Hash}
    (h : processSection backend chain parentHash hashOf c sec lastHead = some (d, .ok newHead)) :
    ∃ s₀ s₁, backend.reset c.backend sec lastHead = (s₀, none) ∧
      processLoop backend chain parentHash hashOf s₀ lastHead
        (List.range' (sec * c.sectionSize) c.sectionSize) = some (s₁, .ok newHead) ∧
      backend.commit s₁ = some (d.backend, none) ∧ d = { c with backend := d.backend } := by
  unfold processSection at h
  split at h
  · cases h
  · next s₀ hreset =>
    split at h
    · cases h
    · cases h
    · next s₁ lastHead' hloop =>
      split at h
      · cases h
      · cases h
      · next s₂ hcommit =>
        cases h
        exact ⟨s₀, s₁, hreset, hloop, hcommit, rfl⟩

/-- The backend after `processSection`: `Reset`, then the loop as far as it went, then
`Commit` if the loop got to the end. -/
theorem processSection_backend {c d : ChainIndexer σ} {sec : Nat} {lastHead : Hash}
    {r : Except (SectionError ε) Hash}
    (h : processSection backend chain parentHash hashOf c sec lastHead = some (d, r)) :
    ∃ s₀ e₀, backend.reset c.backend sec lastHead = (s₀, e₀) ∧
      (d.backend = s₀ ∨ ∃ s₁ r₁, processLoop backend chain parentHash hashOf s₀ lastHead
          (List.range' (sec * c.sectionSize) c.sectionSize) = some (s₁, r₁) ∧
        (d.backend = s₁ ∨ ∃ e, backend.commit s₁ = some (d.backend, e))) := by
  unfold processSection at h
  split at h
  · next s₀ err hreset =>
    cases h
    exact ⟨s₀, some err, hreset, .inl rfl⟩
  · next s₀ hreset =>
    refine ⟨s₀, none, hreset, .inr ?_⟩
    split at h
    · cases h
    · next s₁ err hloop =>
      cases h
      exact ⟨s₁, _, hloop, .inl rfl⟩
    · next s₁ lastHead' hloop =>
      refine ⟨s₁, _, hloop, .inr ?_⟩
      split at h
      · cases h
      · next s₂ err hcommit =>
        cases h
        exact ⟨_, hcommit⟩
      · next s₂ hcommit =>
        cases h
        exact ⟨_, hcommit⟩

/-- **`processSection` changes the backend**, and after a failed `Reset` drops every stored
section; nothing else. -/
theorem processSection_cases {c c' : ChainIndexer σ} {sec : Nat} {lastHead : Hash}
    {r : Except (SectionError ε) Hash}
    (h : processSection backend chain parentHash hashOf c sec lastHead = some (c', r)) :
    c' = { c with backend := c'.backend } ∨
      c' = ({ c with backend := c'.backend } : ChainIndexer σ).setValidSections 0 ∧
        ∃ err, r = .error (.backend err) := by
  unfold processSection at h
  split at h
  · cases h
    exact .inr ⟨rfl, _, rfl⟩
  · split at h
    · cases h
    · cases h
      exact .inl rfl
    · split at h
      · cases h
      · cases h
        exact .inl rfl
      · cases h
        exact .inl rfl

theorem sectionSize_processSection {c c' : ChainIndexer σ} {sec : Nat} {lastHead : Hash}
    {r : Except (SectionError ε) Hash}
    (h : processSection backend chain parentHash hashOf c sec lastHead = some (c', r)) :
    c'.sectionSize = c.sectionSize := by
  rcases processSection_cases backend chain parentHash hashOf h with hc | ⟨hc, -⟩
  · rw [hc]
  · rw [hc]
    rfl

/-- **What a round of the update loop does**: it stores the next section with the head its
processing returned, from a backend that processed it; or it stores nothing new, its
backend having possibly processed the section without success. -/
theorem updateRound_cases {c c' : ChainIndexer σ}
    (h : updateRound backend chain parentHash hashOf c = some c') :
    (∃ (d : ChainIndexer σ) (lastHead newHead : Hash),
        processSection backend chain parentHash hashOf c c.storedSections lastHead =
          some (d, .ok newHead) ∧
        d = { c with backend := d.backend } ∧
        c' = (d.setSectionHead c.storedSections newHead).setValidSections (c.storedSections + 1)) ∨
      c'.sectionSize = c.sectionSize ∧ c'.storedSections ≤ c.storedSections ∧
        (∀ k < c'.storedSections, c'.sectionHeads k = c.sectionHeads k) ∧
        ((∃ (d : ChainIndexer σ) (lastHead : Hash) (r : Except (SectionError ε) Hash),
          processSection backend chain parentHash hashOf c c.storedSections lastHead = some (d, r) ∧
            c'.backend = d.backend) ∨ c'.backend = c.backend) := by
  unfold updateRound at h
  dsimp only at h
  split at h
  · split at h
    · cases h
    · next oldHead initParent hstart =>
      split at h
      · cases h
      · next d newHead hproc =>
        rcases processSection_cases backend chain parentHash hashOf hproc with hd | ⟨-, err, herr⟩
        · split at h
          · cases h
            exact .inl ⟨d, oldHead, newHead, hproc, hd, rfl⟩
          · cases h
            rw [hd]
            exact .inr ⟨rfl, le_refl _, fun k _ => rfl, .inl ⟨d, oldHead, _, hproc, rfl⟩⟩
        · cases herr
      · next d err hproc =>
        cases h
        refine .inr ⟨(sectionSize_processSection backend chain parentHash hashOf hproc :
          d.sectionSize = c.sectionSize), ?_, fun k hk => ?_,
          .inl ⟨d, oldHead, _, hproc, rfl⟩⟩
        · rcases processSection_cases backend chain parentHash hashOf hproc with hd | ⟨hd, -⟩
          · rw [hd]
          · rw [hd]
            exact Nat.zero_le _
        · rcases processSection_cases backend chain parentHash hashOf hproc with hd | ⟨hd, -⟩
          · rw [hd]
          · rw [hd] at hk
            exact absurd hk (Nat.not_lt_zero k)
  · cases h
    exact .inr ⟨rfl, le_refl _, fun k _ => rfl, .inr rfl⟩

/-- A new head leaves the backend and the heads of the sections it keeps, and keeps no more
sections than there were. -/
theorem newHead_cases (c : ChainIndexer σ) (head : Nat) (reorg : Bool) :
    (c.newHead head reorg).backend = c.backend ∧
      (c.newHead head reorg).storedSections ≤ c.storedSections ∧
      ∀ k < (c.newHead head reorg).storedSections,
        (c.newHead head reorg).sectionHeads k = c.sectionHeads k := by
  unfold newHead
  split
  · -- a reorg: the known sections are cut back, then the stored ones
    dsimp only
    generalize hc₁ : (if head / c.sectionSize < c.knownSections then
      { c with knownSections := head / c.sectionSize } else c) = c₁
    have h₁ : c₁.backend = c.backend ∧ c₁.storedSections = c.storedSections ∧
        c₁.sectionHeads = c.sectionHeads := by
      subst hc₁
      split <;> exact ⟨rfl, rfl, rfl⟩
    obtain ⟨hb, hs, hh⟩ := h₁
    split
    · refine ⟨hb, ?_, fun k hk => ?_⟩
      · rw [storedSections_setValidSections]
        omega
      · rw [storedSections_setValidSections] at hk
        have hkept : ¬(head / c.sectionSize ≤ k ∧ k < c₁.storedSections) := by omega
        rw [sectionHeads_setValidSections, if_neg hkept, hh]
    · exact ⟨hb, hs.le, fun k _ => by rw [hh]⟩
  · split
    · dsimp only
      split <;> exact ⟨rfl, le_refl _, fun k _ => rfl⟩
    · exact ⟨rfl, le_refl _, fun k _ => rfl⟩

/-! ### Invariants over runs -/

/-- Every stored section has a head `h`, and `Good b k h` holds of the backend's state `b`:
section `k` is indexed in it, under the head `h`. -/
def Indexed (Good : σ → Nat → Hash → Prop) (c : ChainIndexer σ) : Prop :=
  ∀ k < c.storedSections, ∃ h, c.sectionHeads k = some h ∧ Good c.backend k h

section Indexed

variable {Good : σ → Nat → Hash → Prop} {Inv : ChainIndexer σ → Prop}

/-- A new head keeps every section it keeps indexed. -/
theorem Indexed.newHead {c : ChainIndexer σ} (hc : Indexed Good c) (head : Nat) (reorg : Bool) :
    Indexed Good (c.newHead head reorg) := by
  obtain ⟨hb, hs, hh⟩ := newHead_cases c head reorg
  intro k hk
  obtain ⟨h, hk', hgood⟩ := hc k (by omega)
  exact ⟨h, (hh k hk).trans hk', hb ▸ hgood⟩

/-- A round of the update loop keeps the sections indexed, when processing a section keeps
the sections below it indexed and indexes it under the head it returns, in the states `Inv`
holds of. -/
theorem Indexed.updateRound
    (hkeep : ∀ (c d : ChainIndexer σ) (sec : Nat) (lastHead : Hash) (r : Except (SectionError ε) Hash),
      Inv c → processSection backend chain parentHash hashOf c sec lastHead = some (d, r) →
        ∀ k < sec, ∀ h, Good c.backend k h → Good d.backend k h)
    (hgood : ∀ (c d : ChainIndexer σ) (sec : Nat) (lastHead newHead : Hash), Inv c →
      processSection backend chain parentHash hashOf c sec lastHead = some (d, .ok newHead) →
        Good d.backend sec newHead)
    {c c' : ChainIndexer σ} (hinv : Inv c) (hc : Indexed Good c)
    (h : updateRound backend chain parentHash hashOf c = some c') : Indexed Good c' := by
  rcases updateRound_cases backend chain parentHash hashOf h with
    ⟨d, lastHead, newHead, hproc, hd, rfl⟩ | ⟨-, hs, hh, hback⟩
  · -- the next section is stored, with the head its processing returned
    intro k hk
    rw [storedSections_setValidSections] at hk
    have hkept : ¬(c.storedSections + 1 ≤ k ∧
        k < (d.setSectionHead c.storedSections newHead).storedSections) := by omega
    rw [sectionHeads_setValidSections, if_neg hkept, sectionHeads_setSectionHead,
      backend_setValidSections, backend_setSectionHead]
    by_cases hks : k = c.storedSections
    · subst hks
      exact ⟨newHead, Function.update_self .., hgood c d _ lastHead newHead hinv hproc⟩
    · obtain ⟨h, hk', hg⟩ := hc k (by omega)
      refine ⟨h, ?_, hkeep c d _ lastHead _ hinv hproc k (by omega) h hg⟩
      rw [Function.update_of_ne hks, hd]
      exact hk'
  · -- nothing new is stored
    intro k hk
    obtain ⟨h, hk', hg⟩ := hc k (by omega)
    refine ⟨h, (hh k hk).trans hk', ?_⟩
    rcases hback with ⟨d, lastHead, r, hproc, hb⟩ | hb
    · rw [hb]
      exact hkeep c d _ lastHead r hinv hproc k (by omega) h hg
    · rw [hb]
      exact hg

/-- **Every run keeps the stored sections indexed**: from a state whose stored sections are
indexed, in every state a run reaches, when processing a section keeps the sections below
it indexed and indexes it under the head it returns, in the states an invariant `Inv` of
the runs holds of. -/
theorem indexed_of_reachable
    (hinv : ∀ c c' : ChainIndexer σ, Inv c → Step backend chain parentHash hashOf c c' → Inv c')
    (hkeep : ∀ (c d : ChainIndexer σ) (sec : Nat) (lastHead : Hash) (r : Except (SectionError ε) Hash),
      Inv c → processSection backend chain parentHash hashOf c sec lastHead = some (d, r) →
        ∀ k < sec, ∀ h, Good c.backend k h → Good d.backend k h)
    (hgood : ∀ (c d : ChainIndexer σ) (sec : Nat) (lastHead newHead : Hash), Inv c →
      processSection backend chain parentHash hashOf c sec lastHead = some (d, .ok newHead) →
        Good d.backend sec newHead)
    {c c' : ChainIndexer σ} (hc : Inv c ∧ Indexed Good c)
    (hreach : Reachable backend chain parentHash hashOf c c') : Inv c' ∧ Indexed Good c' := by
  induction hreach with
  | refl => exact hc
  | tail _ hstep ih =>
    refine ⟨hinv _ _ ih.1 hstep, ?_⟩
    cases hstep with
    | newHead head reorg => exact ih.2.newHead head reorg
    | update h => exact ih.2.updateRound backend chain parentHash hashOf hkeep hgood ih.1 h

end Indexed

end Process

end ChainIndexer

end Core
