import Dsplinz.Rlp.Stream

/-!
# The stream stays within its bounds

A stream created with an input limit `L > 0` never reads more than `L` bytes, its
`remaining` count never wraps below zero, and every list on its stack is read no
further than its size, whatever operations a caller performs on it and in whatever
order, errors included (`Rlp.Stream.bounded_perform`).

The invariant is `Rlp.Stream.Bounded`. Besides the three facts above it records what
makes them inductive: each inner list fits in what was left of the enclosing one when it
was opened (`ListEnd` adds its size to the enclosing list), and a cached kind without an
error fits in the innermost list (`List` pushes the cached size). Every method keeps it;
most of them because the methods they call do (`ExceptState.keeps_bind`), and `willRead`,
`readByte`, `readFull`, `Kind`, `List` and `ListEnd` by evaluating them.
-/

namespace Rlp.Stream

open ExceptState

/-! ### The invariant -/

/-- The list stack is consistent: every list has been read no further than its size, and
every inner list fits in what was left of the enclosing one when it was opened. -/
def StackOk : List Listpos → Prop
  | [] => True
  | [tos] => tos.pos ≤ tos.size
  | tos :: parent :: rest =>
    tos.pos ≤ tos.size ∧ parent.pos.toNat + tos.size.toNat ≤ parent.size.toNat ∧
      StackOk (parent :: rest)

/-- A kind cached without an error fits in what is left of the innermost list. -/
def CacheOk (s : Stream) : Prop :=
  s.kind ≠ none → s.kinderr = none →
    ∀ tos, s.stack.head? = some tos → s.size.toNat + tos.pos.toNat ≤ tos.size.toNat

/-- **The invariant of a stream with input limit `limit` over the input `input₀`**: the
reader has handed out a prefix of the input, no more bytes than the limit minus what is
`remaining`, and the stack and the cached kind are consistent. -/
structure Bounded (limit : Nat) (input₀ : List UInt8) (s : Stream) : Prop where
  limited : s.limited = true
  suffix : s.input <:+ input₀
  budget : input₀.length - s.input.length + s.remaining.toNat ≤ limit
  stack : StackOk s.stack
  cache : CacheOk s

variable {limit : Nat} {input₀ : List UInt8}

theorem StackOk.pos_le : ∀ {stack : List Listpos} {tos : Listpos} {rest : List Listpos},
    stack = tos :: rest → StackOk stack → tos.pos ≤ tos.size
  | [_], _, _, rfl, h => h
  | _ :: _ :: _, _, _, rfl, h => h.1

/-- The innermost list after `n` more bytes of it, when they fit. -/
theorem stackOk_advance {tos : Listpos} {rest : List Listpos} {n : UInt64}
    (h : StackOk (tos :: rest)) (hn : ¬ n > tos.size - tos.pos) :
    StackOk ({ tos with pos := tos.pos + n } :: rest) := by
  have hle := h.pos_le rfl
  have hfit : tos.pos.toNat + n.toNat ≤ tos.size.toNat := by
    rw [gt_iff_lt, UInt64.lt_iff_toNat_lt, UInt64.toNat_sub_of_le _ _ hle] at hn
    rw [UInt64.le_iff_toNat_le] at hle
    omega
  have hpos : (tos.pos + n).toNat = tos.pos.toNat + n.toNat := by
    rw [UInt64.toNat_add, Nat.mod_eq_of_lt]
    exact lt_of_le_of_lt hfit (UInt64.toNat_lt _)
  have hle' : tos.pos + n ≤ tos.size := by
    rw [UInt64.le_iff_toNat_le, hpos]
    exact hfit
  cases rest with
  | nil => exact hle'
  | cons parent rest => exact ⟨hle', h.2⟩

/-- A state that differs from a bounded one only in fields the invariant does not read. -/
theorem Bounded.of_eq {s s' : Stream} (hs : Bounded limit input₀ s) (hlim : s'.limited = s.limited)
    (hin : s'.input = s.input) (hrem : s'.remaining = s.remaining) (hstack : s'.stack = s.stack)
    (hcache : CacheOk s') : Bounded limit input₀ s' := by
  obtain ⟨hl, hsuf, hbud, hst, -⟩ := hs
  exact ⟨hlim ▸ hl, hin ▸ hsuf, hin ▸ hrem ▸ hbud, hstack ▸ hst, hcache⟩

theorem cacheOk_of_kind {s : Stream} (h : s.kind = none) : CacheOk s :=
  fun hk => absurd h hk

/-- Rearming `Kind` keeps the invariant. -/
theorem Bounded.rearm {s : Stream} (hs : Bounded limit input₀ s) :
    Bounded limit input₀ { s with kind := none } :=
  hs.of_eq rfl rfl rfl rfl (cacheOk_of_kind rfl)

theorem keeps_rearm : Keeps (Bounded limit input₀) rearm :=
  keeps_modify fun _ hs => hs.rearm

/-! ### Reserving and reading bytes -/

/-- The stack after `n` more bytes of the innermost list. -/
def advance : List Listpos → UInt64 → List Listpos
  | [], _ => []
  | tos :: rest, n => { tos with pos := tos.pos + n } :: rest

/-- There is room for `n` more bytes, by the two checks of `willRead`: in the innermost
list, and within the input limit. -/
def Room (s : Stream) (n : UInt64) : Prop :=
  (∀ tos ∈ s.stack.head?, ¬ n > tos.size - tos.pos) ∧ (s.limited = true → ¬ n > s.remaining)

/-- The stream after `willRead n` has reserved `n` bytes. -/
def reserve (s : Stream) (n : UInt64) : Stream :=
  { s with kind := none, stack := advance s.stack n,
           remaining := if s.limited then s.remaining - n else s.remaining }

/-- `willRead n` succeeds exactly when there is room, and reserves the bytes. -/
theorem run_willRead_of_room {s : Stream} {n : UInt64} (h : Room s n) :
    run (willRead n) s = (.ok (), reserve s n) := by
  obtain ⟨hlist, hlim⟩ := h
  cases hstack : s.stack with
  | nil =>
    cases hl : s.limited with
    | false => simp [willRead, rearm, run_bind, hstack, hl, reserve, advance]
    | true =>
      have hn := hlim hl
      simp [willRead, rearm, run_bind, hstack, hl, hn, reserve, advance]
  | cons tos rest =>
    have hover := hlist tos (by simp [hstack])
    cases hl : s.limited with
    | false => simp [willRead, rearm, run_bind, hstack, hl, hover, reserve, advance]
    | true =>
      have hn := hlim hl
      simp [willRead, rearm, run_bind, hstack, hl, hn, hover, reserve, advance]

theorem room_of_run_willRead {s s' : Stream} {n : UInt64} {u : Unit}
    (h : run (willRead n) s = (.ok u, s')) : Room s n ∧ s' = reserve s n := by
  have hroom : Room s n := by
    refine ⟨fun tos htos hover => ?_, fun hl hn => ?_⟩
    · obtain ⟨rest, hstack⟩ : ∃ rest, s.stack = tos :: rest := by
        cases hs : s.stack with
        | nil => simp [hs] at htos
        | cons t r => exact ⟨r, by simp_all⟩
      simp [willRead, rearm, run_bind, hstack, hover] at h
    · cases hstack : s.stack with
      | nil => simp [willRead, rearm, run_bind, hstack, hl, hn] at h
      | cons tos rest =>
        by_cases hover : n > tos.size - tos.pos
        · simp [willRead, rearm, run_bind, hstack, hover] at h
        · simp [willRead, rearm, run_bind, hstack, hl, hn, hover] at h
  rw [run_willRead_of_room hroom] at h
  exact ⟨hroom, (Prod.mk.inj h).2.symm⟩

/-- `readByte` with room for a byte that is there. -/
theorem run_readByte {s : Stream} {b : UInt8} {rest : List UInt8} (h : Room s 1)
    (hin : s.input = b :: rest) :
    run readByte s = (.ok b, { reserve s 1 with input := rest }) := by
  rw [readByte, run_bind_ok (run_willRead_of_room h)]
  simp [run_bind, reserve, hin]

theorem readByte_ok {s s' : Stream} {b : UInt8} (h : run readByte s = (.ok b, s')) :
    Room s 1 ∧ s.input = b :: s'.input ∧ s' = { reserve s 1 with input := s'.input } := by
  rw [readByte, run_bind] at h
  rcases hw : run (willRead 1) s with ⟨_ | u, s₁⟩
  · rw [hw] at h
    cases h
  · obtain ⟨hroom, rfl⟩ := room_of_run_willRead hw
    rw [hw] at h
    cases hin : s.input with
    | nil => simp [run_bind, reserve, hin] at h
    | cons c rest =>
      simp [run_bind, reserve, hin] at h
      obtain ⟨rfl, rfl⟩ := h
      exact ⟨hroom, rfl, by simp [reserve]⟩

/-- `readFull n` with room for `n` bytes that are there. -/
theorem run_readFull {s : Stream} {n : UInt64} {bs rest : List UInt8} (h : Room s n)
    (hin : s.input = bs ++ rest) (hlen : bs.length = n.toNat) :
    run (readFull n) s = (.ok bs, { reserve s n with input := rest }) := by
  rw [readFull, run_bind_ok (run_willRead_of_room h)]
  simp [run_bind, reserve, hin, ← hlen]

theorem readFull_ok {s s' : Stream} {n : UInt64} {bs : List UInt8}
    (h : run (readFull n) s = (.ok bs, s')) :
    Room s n ∧ s.input = bs ++ s'.input ∧ bs.length = n.toNat ∧
      s' = { reserve s n with input := s'.input } := by
  rw [readFull, run_bind] at h
  rcases hw : run (willRead n) s with ⟨_ | u, s₁⟩
  · rw [hw] at h
    cases h
  · obtain ⟨hroom, rfl⟩ := room_of_run_willRead hw
    rw [hw] at h
    by_cases hshort : s.input.length < n.toNat
    · simp [run_bind, reserve, hshort] at h
    · simp [run_bind, reserve, hshort] at h
      obtain ⟨rfl, rfl⟩ := h
      refine ⟨hroom, by simp, ?_, by simp [reserve]⟩
      simp only [List.length_take]
      omega

/-! ### Reading keeps the bounds -/

/-- Reserving `n` bytes there is room for, and reading at most `n` of them. -/
theorem Bounded.take {s : Stream} (hs : Bounded limit input₀ s) {n : UInt64} (h : Room s n)
    {k : Nat} (hk : k ≤ n.toNat) :
    Bounded limit input₀ { reserve s n with input := s.input.drop k } := by
  have hsuf := hs.suffix
  have hlen := hsuf.length_le
  have hbud := hs.budget
  have hl := hs.limited
  have hn := h.2 hl
  rw [gt_iff_lt, UInt64.lt_iff_toNat_lt, not_lt] at hn
  refine ⟨hl, (List.drop_suffix k s.input).trans hsuf, ?_, ?_, cacheOk_of_kind rfl⟩
  · simp only [reserve, hl, if_true, List.length_drop]
    rw [UInt64.toNat_sub_of_le _ _ (UInt64.le_iff_toNat_le.mpr hn)]
    omega
  · have hst := hs.stack
    simp only [reserve]
    cases hstack : s.stack with
    | nil => trivial
    | cons tos rest =>
      rw [hstack] at hst
      exact stackOk_advance hst (h.1 tos (by simp [hstack]))

theorem keeps_willRead (n : UInt64) : Keeps (Bounded limit input₀) (willRead n) := by
  intro s hs
  by_cases hroom : Room s n
  · rw [run_willRead_of_room hroom]
    simpa [reserve] using hs.take hroom (Nat.zero_le _)
  -- a failed check leaves the stream rearmed, and the list advanced if only the limit failed
  have hl := hs.limited
  cases hstack : s.stack with
  | nil =>
    have hn : n > s.remaining := by
      by_contra hn
      exact hroom ⟨fun tos htos => by simp [hstack] at htos, fun _ => hn⟩
    simp only [willRead, rearm, run_bind, run_modify, run_get, hstack, hl, hn, run_throw, if_true]
    exact hs.of_eq hl.symm rfl rfl hstack.symm (cacheOk_of_kind rfl)
  | cons tos rest =>
    have hst : StackOk (tos :: rest) := hstack ▸ hs.stack
    by_cases hover : n > tos.size - tos.pos
    · simp only [willRead, rearm, run_bind, run_modify, run_get, hstack, hover, run_throw, if_true]
      exact hs.of_eq rfl rfl rfl hstack.symm (cacheOk_of_kind rfl)
    · have hn : n > s.remaining := by
        by_contra hn
        refine hroom ⟨fun t ht => ?_, fun _ => hn⟩
        simp only [hstack, List.head?_cons, Option.mem_def, Option.some.injEq] at ht
        exact ht ▸ hover
      simp only [willRead, rearm, run_bind, run_modify, run_get, hstack, hl, hn, hover, run_set,
        run_throw, if_true, if_false]
      exact ⟨rfl, hs.suffix, hs.budget, stackOk_advance hst hover, cacheOk_of_kind rfl⟩

theorem keeps_readByte : Keeps (Bounded limit input₀) readByte := by
  intro s hs
  rw [readByte, run_bind]
  rcases hw : run (willRead 1) s with ⟨_ | u, s₁⟩
  · have := keeps_willRead 1 s hs
    rwa [hw] at this
  · obtain ⟨hroom, rfl⟩ := room_of_run_willRead hw
    cases hin : s.input with
    | nil =>
      have := hs.take hroom (Nat.zero_le _)
      simp only [List.drop_zero] at this
      simp [run_bind, reserve, hin] at this ⊢
      exact this
    | cons b rest =>
      have := hs.take hroom (k := 1) (by decide)
      simp [run_bind, reserve, hin] at this ⊢
      exact this

theorem keeps_readFull (n : UInt64) : Keeps (Bounded limit input₀) (readFull n) := by
  intro s hs
  rw [readFull, run_bind]
  rcases hw : run (willRead n) s with ⟨_ | u, s₁⟩
  · have := keeps_willRead n s hs
    rwa [hw] at this
  · obtain ⟨hroom, rfl⟩ := room_of_run_willRead hw
    have := hs.take hroom (le_refl n.toNat)
    by_cases hshort : s.input.length < n.toNat
    · simp [run_bind, reserve, hshort] at this ⊢
      exact this
    · simp [run_bind, reserve, hshort] at this ⊢
      exact this

theorem keeps_readUint (size : UInt8) : Keeps (Bounded limit input₀) (readUint size) := by
  unfold readUint
  refine keeps_ite (fun _ => keeps_bind keeps_rearm fun _ => keeps_pure _) fun _ => ?_
  refine keeps_ite (fun _ => keeps_bind keeps_readByte fun _ => keeps_pure _) fun _ => ?_
  refine keeps_bind (keeps_readFull _) fun _ => ?_
  exact keeps_ite (fun _ => keeps_bind (keeps_throw _) fun _ => keeps_pure _) fun _ => keeps_pure _

/-! ### Kinds and values keep the bounds -/

theorem Bounded.byteval {s : Stream} (hs : Bounded limit input₀ s) (b : UInt8) :
    Bounded limit input₀ { s with byteval := b } :=
  hs.of_eq rfl rfl rfl rfl hs.cache

theorem keeps_readKind : Keeps (Bounded limit input₀) readKind := by
  unfold readKind
  refine keeps_bind (keeps_attempt keeps_readByte) fun r => ?_
  cases r with
  | error err =>
    exact keeps_bind keeps_get fun _ => keeps_ite (fun _ => keeps_pure _) fun _ => keeps_pure _
  | ok b =>
    refine keeps_bind (keeps_modify fun s hs => hs.byteval 0) fun _ => ?_
    refine keeps_ite (fun _ => keeps_bind (keeps_modify fun s hs => hs.byteval b)
      fun _ => keeps_pure _) fun _ => ?_
    refine keeps_ite (fun _ => keeps_pure _) fun _ => ?_
    refine keeps_ite (fun _ => keeps_bind (keeps_attempt (keeps_readUint _))
      fun _ => keeps_pure _) fun _ => ?_
    refine keeps_ite (fun _ => keeps_pure _) fun _ => ?_
    exact keeps_bind (keeps_attempt (keeps_readUint _)) fun _ => keeps_pure _

/-! ### Evaluating `Kind` -/

/-- The error `Kind` caches for a value of `size` bytes that `readKind` read without
error: at toplevel the value must fit in the remaining input, inside a list in what is
left of the list. -/
def fitErr (s : Stream) (size : UInt64) : Option Error :=
  match s.stack with
  | [] => if s.limited = true ∧ size > s.remaining then some .valueTooLarge else none
  | tos :: _ => if size > tos.size - tos.pos then some .elemTooLarge else none

/-- The outcome of `Kind` once its cache holds the kind `k`, the size `size` and the error
`err`. -/
def cachedResult (k : Rlp.Kind) (size : UInt64) : Option Error → Except Error (Rlp.Kind × UInt64)
  | some err => .error err
  | none => .ok (k, size)

theorem run_Kind_cached {s : Stream} {k : Rlp.Kind} (hk : s.kind = some k) :
    run Stream.Kind s = (cachedResult k s.size s.kinderr, s) := by
  cases herr : s.kinderr <;> simp [Stream.Kind, run_bind, hk, herr, cachedResult]

theorem run_Kind_eol {s : Stream} {tos : Listpos} {rest : List Listpos} (hk : s.kind = none)
    (hstack : s.stack = tos :: rest) (heq : tos.pos = tos.size) :
    run Stream.Kind s = (.error .eol, { s with kinderr := none }) := by
  rcases s with ⟨input, remaining, limited, kind, size, byteval, kinderr, stack⟩
  simp only at hk hstack
  subst hk hstack
  simp [Stream.Kind, run_bind, heq]

/-- `Kind` with nothing cached and not at the end of a list: it reads a header with
`readKind` and caches what it returned, with the error of `fitErr` if the value does not
fit. -/
theorem run_Kind_read {s : Stream} (hk : s.kind = none)
    (hnot : ∀ tos rest, s.stack = tos :: rest → tos.pos ≠ tos.size) :
    run Stream.Kind s = match run readKind { s with kinderr := none } with
      | (.error err, s₂) => (.error err, s₂)
      | (.ok (k, size, err), s₂) =>
        let err := if err = none then fitErr s₂ size else err
        (cachedResult k size err, { s₂ with kind := some k, size := size, kinderr := err }) := by
  rcases s with ⟨input, remaining, limited, kind, size, byteval, kinderr, stack⟩
  simp only at hk hnot
  subst hk
  rcases hrun : run readKind ⟨input, remaining, limited, none, size, byteval, none, stack⟩ with
    ⟨_ | ⟨k, sz, err⟩, s₂⟩
  all_goals rcases stack with _ | ⟨tos, rest⟩ <;> simp [Stream.Kind, run_bind, hrun, hnot]
  all_goals
    rcases s₂ with ⟨i₂, r₂, l₂, k₂, z₂, b₂, e₂, st₂⟩
    by_cases herr : err = none
    · subst herr
      rcases st₂ with _ | ⟨t₂, rest₂⟩
      · by_cases hover : l₂ = true ∧ r₂ < sz
        · obtain ⟨rfl, hlt⟩ := hover
          simp [run_bind, hlt, fitErr, cachedResult]
        · simp [run_bind, hover, fitErr, cachedResult]
      · by_cases hover : t₂.size - t₂.pos < sz
        · simp [run_bind, hover, fitErr, cachedResult]
        · simp [run_bind, hover, fitErr, cachedResult]
    · obtain ⟨e, rfl⟩ := Option.ne_none_iff_exists'.mp herr
      simp [cachedResult]

/-- A successful `Kind` leaves the kind and size it returned cached without error. -/
theorem Kind_ok {s s' : Stream} {k : Rlp.Kind} {size : UInt64}
    (h : run Stream.Kind s = (.ok (k, size), s')) :
    s'.kind = some k ∧ s'.kinderr = none ∧ s'.size = size := by
  cases hk : s.kind with
  | some k₀ =>
    rw [run_Kind_cached hk] at h
    cases herr : s.kinderr <;> simp [cachedResult, herr] at h
    obtain ⟨⟨rfl, rfl⟩, rfl⟩ := h
    exact ⟨hk, herr, rfl⟩
  | none =>
    by_cases hend : ∃ tos rest, s.stack = tos :: rest ∧ tos.pos = tos.size
    · obtain ⟨tos, rest, hstack, heq⟩ := hend
      rw [run_Kind_eol hk hstack heq] at h
      cases h
    · rw [run_Kind_read hk fun tos rest hs heq => hend ⟨tos, rest, hs, heq⟩] at h
      rcases hrun : run readKind { s with kinderr := none } with ⟨_ | ⟨k', sz, err⟩, s₂⟩ <;>
        rw [hrun] at h
      · cases h
      · simp only at h
        -- the outcome is a success only when no error was cached
        generalize (if err = none then fitErr s₂ sz else err) = e' at h
        cases e' with
        | some e => simp [cachedResult] at h
        | none =>
          simp only [cachedResult, Prod.mk.injEq, Except.ok.injEq] at h
          obtain ⟨⟨rfl, rfl⟩, rfl⟩ := h
          exact ⟨rfl, rfl, rfl⟩

theorem keeps_Kind : Keeps (Bounded limit input₀) Stream.Kind := by
  intro s hs
  cases hk : s.kind with
  | some k =>
    rw [run_Kind_cached hk]
    exact hs
  | none =>
    have hs₁ : Bounded limit input₀ { s with kinderr := none } :=
      hs.of_eq rfl rfl rfl rfl (cacheOk_of_kind hk)
    by_cases hend : ∃ tos rest, s.stack = tos :: rest ∧ tos.pos = tos.size
    · obtain ⟨tos, rest, hstack, heq⟩ := hend
      rw [run_Kind_eol hk hstack heq]
      exact hs₁
    · rw [run_Kind_read hk fun tos rest hs heq => hend ⟨tos, rest, hs, heq⟩]
      have hrk := keeps_readKind _ hs₁
      rcases hrun : run readKind { s with kinderr := none } with ⟨_ | ⟨k, sz, err⟩, s₂⟩ <;>
        rw [hrun] at hrk
      · exact hrk
      · -- the size is cached without error only if it fits
        refine hrk.of_eq rfl rfl rfl rfl fun _ herr tos htos => ?_
        simp only at herr htos ⊢
        rw [if_pos (by by_contra h; simp [h] at herr)] at herr
        obtain ⟨rest, hstack⟩ : ∃ rest, s₂.stack = tos :: rest := by
          cases hs' : s₂.stack with
          | nil => simp [hs'] at htos
          | cons t r => exact ⟨r, by simp_all⟩
        have hover : ¬ sz > tos.size - tos.pos := by
          intro hover
          simp [fitErr, hstack, hover] at herr
        have hle := (hstack ▸ hrk.stack : StackOk (tos :: rest)).pos_le rfl
        rw [gt_iff_lt, UInt64.lt_iff_toNat_lt, not_lt, UInt64.toNat_sub_of_le _ _ hle] at hover
        rw [UInt64.le_iff_toNat_le] at hle
        omega

/-! ### The methods keep the bounds -/

theorem keeps_bytes : Keeps (Bounded limit input₀) bytes := by
  unfold bytes
  refine keeps_bind keeps_Kind fun ⟨kind, size⟩ => ?_
  cases kind with
  | byte => exact keeps_bind keeps_rearm fun _ => keeps_bind keeps_get fun _ => keeps_pure _
  | string =>
    refine keeps_bind (keeps_readFull size) fun _ => ?_
    exact keeps_ite (fun _ => keeps_bind (keeps_throw _) fun _ => keeps_pure _) fun _ => keeps_pure _
  | list => exact keeps_throw _

theorem keeps_raw : Keeps (Bounded limit input₀) raw := by
  unfold raw
  refine keeps_bind keeps_Kind fun ⟨kind, size⟩ => ?_
  refine keeps_ite (fun _ => keeps_bind keeps_rearm fun _ => keeps_bind keeps_get
    fun _ => keeps_pure _) fun _ => ?_
  exact keeps_bind (keeps_readFull size) fun _ =>
    keeps_ite (fun _ => keeps_pure _) fun _ => keeps_pure _

theorem keeps_uint (maxbits : Nat) : Keeps (Bounded limit input₀) (uint maxbits) := by
  unfold uint
  refine keeps_bind keeps_Kind fun ks => ?_
  obtain ⟨kind, size⟩ := ks
  cases kind with
  | byte =>
    refine keeps_bind keeps_get fun _ => ?_
    exact keeps_ite (fun _ => keeps_bind (keeps_throw _) fun _ =>
      keeps_bind keeps_rearm fun _ => keeps_pure _) fun _ =>
      keeps_bind keeps_rearm fun _ => keeps_pure _
  | string =>
    -- after the size check, with or without the overflow error, the same read
    refine keeps_ite (fun _ => keeps_bind (keeps_throw _) fun _ => ?_) fun _ => ?_
    all_goals
      refine keeps_bind (keeps_attempt (keeps_readUint _)) fun r => ?_
      rcases r with (_ | _) | v
      all_goals first
        | exact keeps_throw _
        | exact keeps_ite (fun _ => keeps_throw _) fun _ => keeps_pure _
  | list => exact keeps_throw _

theorem keeps_bool : Keeps (Bounded limit input₀) bool := by
  unfold bool
  refine keeps_bind (keeps_uint 8) fun _ => ?_
  exact keeps_ite (fun _ => keeps_pure _) fun _ =>
    keeps_ite (fun _ => keeps_pure _) fun _ => keeps_throw _

/-- `List` pushes the cached size, which fits in the enclosing list. -/
theorem keeps_list : Keeps (Bounded limit input₀) list := by
  intro s hs
  rw [list, run_bind]
  have hkind := keeps_Kind s hs
  rcases hrun : run Stream.Kind s with ⟨_ | ⟨k, size⟩, s₁⟩ <;> rw [hrun] at hkind
  · exact hkind
  · obtain ⟨hk, herr, hsize⟩ := Kind_ok hrun
    by_cases hlist : k ≠ .list
    · simp [hlist]
      exact hkind
    · simp only [ne_eq, Decidable.not_not] at hlist
      subst hlist
      simp
      refine ⟨hkind.limited, hkind.suffix, hkind.budget, ?_, cacheOk_of_kind rfl⟩
      -- the new list starts at position 0 and fits in what is left of its parent
      have hfit := hkind.cache (by simp [hk]) herr
      cases hstack : s₁.stack with
      | nil => exact UInt64.zero_le
      | cons tos rest =>
        have hst := hkind.stack
        rw [hstack] at hst
        have := hfit tos (by simp [hstack])
        rw [hsize] at this
        exact ⟨UInt64.zero_le, by simp only; omega, hst⟩

/-- `ListEnd` pops a list read to its end, and counts it as read in the enclosing one. -/
theorem keeps_listEnd : Keeps (Bounded limit input₀) listEnd := by
  intro s hs
  have hst := hs.stack
  rcases hstack : s.stack with _ | ⟨tos, _ | ⟨parent, rest⟩⟩
  · simp [listEnd, run_bind, hstack]
    exact hs
  · by_cases heq : tos.pos ≠ tos.size
    · simp [listEnd, run_bind, hstack, heq]
      exact hs
    · simp only [ne_eq, Decidable.not_not] at heq
      simp [listEnd, run_bind, hstack, heq]
      exact ⟨hs.limited, hs.suffix, hs.budget, trivial, cacheOk_of_kind rfl⟩
  · by_cases heq : tos.pos ≠ tos.size
    · simp [listEnd, run_bind, hstack, heq]
      exact hs
    · simp only [ne_eq, Decidable.not_not] at heq
      simp [listEnd, run_bind, hstack, heq]
      refine ⟨hs.limited, hs.suffix, hs.budget, ?_, cacheOk_of_kind rfl⟩
      rw [hstack] at hst
      obtain ⟨-, hfit, hrest⟩ := hst
      -- the enclosing list has room for the whole inner list
      have hpos : (parent.pos + tos.size).toNat = parent.pos.toNat + tos.size.toNat := by
        rw [UInt64.toNat_add, Nat.mod_eq_of_lt]
        exact lt_of_le_of_lt hfit (UInt64.toNat_lt _)
      have hle : parent.pos + tos.size ≤ parent.size := by
        rw [UInt64.le_iff_toNat_le, hpos]
        exact hfit
      cases rest with
      | nil => exact hle
      | cons grand rest => exact ⟨hle, hrest.2.1, hrest.2.2⟩

/-! ### Decoding keeps the bounds -/

theorem keeps_decodeSliceElems {α : Type} {elemdec : StreamM α}
    (h : Keeps (Bounded limit input₀) elemdec) :
    ∀ fuel, Keeps (Bounded limit input₀) (decodeSliceElems elemdec fuel)
  | 0 => keeps_throw _
  | fuel + 1 => by
    unfold decodeSliceElems
    refine keeps_bind (keeps_attempt h) fun r => ?_
    rcases r with (_ | _) | v
    all_goals first
      | exact keeps_pure _
      | exact keeps_throw _
      | exact keeps_bind (keeps_decodeSliceElems h fuel) fun _ => keeps_pure _

theorem keeps_decodeListSlice {α : Type} {elemdec : StreamM α}
    (h : Keeps (Bounded limit input₀) elemdec) (fuel : Nat) :
    Keeps (Bounded limit input₀) (decodeListSlice elemdec fuel) := by
  unfold decodeListSlice
  refine keeps_bind keeps_list fun _ => ?_
  exact keeps_ite (fun _ => keeps_bind keeps_listEnd fun _ => keeps_pure _) fun _ =>
    keeps_bind (keeps_decodeSliceElems h fuel) fun _ =>
      keeps_bind keeps_listEnd fun _ => keeps_pure _

theorem keeps_decodeInterface : ∀ fuel, Keeps (Bounded limit input₀) (decodeInterface fuel)
  | 0 => keeps_throw _
  | fuel + 1 => by
    unfold decodeInterface
    refine keeps_bind keeps_Kind fun _ => ?_
    exact keeps_ite (fun _ => keeps_bind (keeps_decodeListSlice (keeps_decodeInterface fuel) fuel)
      fun _ => keeps_pure _) fun _ => keeps_bind keeps_bytes fun _ => keeps_pure _

theorem keeps_decode : Keeps (Bounded limit input₀) decode :=
  keeps_bind keeps_get fun _ => keeps_decodeInterface _

theorem keeps_perform (op : Op) : Keeps (Bounded limit input₀) op.perform := by
  cases op with
  | kind => exact keeps_bind keeps_Kind fun _ => keeps_pure _
  | bytes => exact keeps_bind keeps_bytes fun _ => keeps_pure _
  | uint => exact keeps_bind (keeps_uint 64) fun _ => keeps_pure _
  | bool => exact keeps_bind keeps_bool fun _ => keeps_pure _
  | raw => exact keeps_bind keeps_raw fun _ => keeps_pure _
  | list => exact keeps_bind keeps_list fun _ => keeps_pure _
  | listEnd => exact keeps_listEnd
  | decode => exact keeps_bind keeps_decode fun _ => keeps_pure _
  | readFull n => exact keeps_bind (keeps_readFull n) fun _ => keeps_pure _
  | rearm => exact keeps_rearm

theorem StackOk.pos_le_of_mem : ∀ {stack : List Listpos}, StackOk stack →
    ∀ e ∈ stack, e.pos ≤ e.size
  | [], _, _, he => absurd he List.not_mem_nil
  | [tos], h, e, he => by
    rw [List.mem_singleton] at he
    exact he ▸ h
  | tos :: parent :: rest, h, e, he => by
    rcases List.mem_cons.mp he with rfl | he
    · exact h.1
    · exact StackOk.pos_le_of_mem h.2.2 e he

theorem bounded_newStream (input : List UInt8) (sized : Bool) {L : UInt64} (hL : 0 < L) :
    Bounded L.toNat input (newStream input sized L) := by
  rw [newStream, if_pos hL]
  exact ⟨rfl, List.suffix_refl _, by simp, trivial, cacheOk_of_kind rfl⟩

/-- **Every sequence of operations keeps the bounds.** -/
theorem bounded_perform : ∀ (ops : List Op) {s : Stream}, Bounded limit input₀ s →
    Bounded limit input₀ (perform ops s)
  | [], _, hs => hs
  | op :: ops, s, hs => bounded_perform ops (keeps_perform op s hs)

/-- **A stream with an input limit never reads past its bounds.** For every input, every
limit `L > 0` and every sequence of operations, errors included: the reader has handed
out a prefix of the input of at most `L` bytes; those bytes and what `remaining` still
allows add up to at most `L`, so `remaining` has never wrapped below zero; and every list
on the stack has been read no further than its size, each inner list fitting in what was
left of the enclosing one. -/
theorem stream_within_bounds (input : List UInt8) (sized : Bool) (L : UInt64) (hL : 0 < L)
    (ops : List Op) :
    let s := perform ops (newStream input sized L)
    s.input <:+ input ∧ input.length - s.input.length ≤ L.toNat ∧
      input.length - s.input.length + s.remaining.toNat ≤ L.toNat ∧
      (∀ e ∈ s.stack, e.pos ≤ e.size) ∧ StackOk s.stack := by
  have hb := bounded_perform ops (bounded_newStream input sized hL)
  exact ⟨hb.suffix, le_trans (Nat.le_add_right _ _) hb.budget, hb.budget,
    hb.stack.pos_le_of_mem, hb.stack⟩

theorem stream_within_bounds_list :
    let s := perform [.list, .bytes, .listEnd, .decode] (newStream [0xC1, 0x80, 0x05] true 3)
    s.input <:+ [0xC1, 0x80, 0x05] ∧ [0xC1, 0x80, 0x05].length - s.input.length ≤ (3 : UInt64).toNat ∧
      [0xC1, 0x80, 0x05].length - s.input.length + s.remaining.toNat ≤ (3 : UInt64).toNat ∧
      (∀ e ∈ s.stack, e.pos ≤ e.size) ∧ StackOk s.stack :=
  stream_within_bounds [0xC1, 0x80, 0x05] true 3 (by decide) [.list, .bytes, .listEnd, .decode]

end Rlp.Stream
