import Dsplinz.Rlp.EncbufSpec

/-!
# The three outputs of the encoder

A finished buffer stands for one byte string, `Rlp.Encbuf.contents`: its string
data with every list header spliced in at its offset (`Rlp.splice`). This file
shows that each of the three loops of `rlp/encode.go` that produce output
produces exactly that string:

* `toBytes`, which fills a buffer of `size` bytes and would panic if a header did
  not fit (`Rlp.Encbuf.toBytes_eq`);
* `toWriter` (`Rlp.Encbuf.toWriter_eq`);
* the reader of `EncodeToReader`, for every sequence of buffer sizes, however the
  pieces are cut (`Rlp.EncReader.readAll_eq`).

Together with `Rlp.written_item`, which computes the contents of an item's buffer,
this gives `Rlp.encodeToBytes_item`: the encoder writes `Rlp.Item.encode`.
-/

namespace Rlp

open BigEndian GoSlice Encbuf

/-! ### String data with headers spliced in -/

/-- The string data from position `strpos` on, with the headers `hs` spliced in at their
offsets. -/
def splice (str : List UInt8) (strpos : Nat) : List Listhead → List UInt8
  | [] => str.drop strpos
  | h :: hs => slice str strpos h.offset ++ h.encode ++ splice str h.offset hs

/-- The headers `hs` can be spliced into `str` from position `strpos` on: their offsets
never decrease, start at `strpos` or later, and stay inside the data. -/
def Ordered (str : List UInt8) (strpos : Nat) : List Listhead → Prop
  | [] => strpos ≤ str.length
  | h :: hs => strpos ≤ h.offset ∧ Ordered str h.offset hs

theorem Ordered.le_length {str : List UInt8} :
    ∀ {p : Nat} {hs : List Listhead}, Ordered str p hs → p ≤ str.length
  | _, [], h => h
  | _, _ :: _, h => le_trans h.1 (Ordered.le_length h.2)

/-- The byte string a finished buffer stands for. -/
def Encbuf.contents (w : Encbuf) : List UInt8 := splice w.str 0 w.lheads

theorem ordered_of_layout {w : Encbuf} (hw : Layout w) : Ordered w.str 0 w.lheads := by
  -- the offsets from the first header on are sorted and inside; strengthen to any start
  suffices h : ∀ (hs : List Listhead) (p : Nat), (hs.Pairwise fun a b => a.offset ≤ b.offset) →
      (∀ h ∈ hs, p ≤ h.offset ∧ h.offset ≤ w.str.length) → p ≤ w.str.length →
      Ordered w.str p hs by
    exact h w.lheads 0 hw.sorted (fun h hh => ⟨Nat.zero_le _, hw.inside h hh⟩) (Nat.zero_le _)
  intro hs
  induction hs with
  | nil => exact fun p _ _ hp => hp
  | cons h hs ih =>
    intro p hsorted hin hp
    obtain ⟨hhead, htail⟩ := List.pairwise_cons.mp hsorted
    refine ⟨(hin h List.mem_cons_self).1, ih h.offset htail (fun g hg => ?_) ?_⟩
    · exact ⟨hhead g hg, (hin g (List.mem_cons_of_mem _ hg)).2⟩
    · exact (hin h List.mem_cons_self).2

theorem length_splice {str : List UInt8} {p : Nat} {hs : List Listhead} (h : Ordered str p hs) :
    (splice str p hs).length = str.length - p + (hs.map fun h => h.encode.length).sum := by
  induction hs generalizing p with
  | nil => simp [splice]
  | cons g hs ih =>
    obtain ⟨hp, hrest⟩ := h
    have := ih hrest
    have hin := hrest.le_length
    simp only [splice, List.length_append, length_slice, this, List.map_cons, List.sum_cons]
    omega

/-- Shifting headers and prepending data cancel out. -/
theorem splice_shift (s₁ s₂ : List UInt8) (q : Nat) (hs : List Listhead) :
    splice (s₁ ++ s₂) (s₁.length + q) (hs.map fun h => ⟨s₁.length + h.offset, h.size⟩) =
      splice s₂ q hs := by
  induction hs generalizing q with
  | nil => simp [splice, List.drop_append]
  | cons h hs ih =>
    simp only [List.map_cons, splice, slice_append_right, ih]
    rfl

theorem splice_extend {s₁ s₂ : List UInt8} {p : Nat} {h₁ : List Listhead} (h₂ : List Listhead)
    (hord : Ordered s₁ p h₁) :
    splice (s₁ ++ s₂) p (h₁ ++ h₂.map fun h => ⟨s₁.length + h.offset, h.size⟩) =
      splice s₁ p h₁ ++ splice s₂ 0 h₂ := by
  induction h₁ generalizing p with
  | nil =>
    -- the data left in `s₁`, then `s₂` with its own headers
    cases h₂ with
    | nil => simp [splice, List.drop_append_of_le_length hord]
    | cons h hs =>
      have hsl : slice (s₁ ++ s₂) p (s₁.length + h.offset) = s₁.drop p ++ slice s₂ 0 h.offset := by
        rw [slice, List.take_append, List.take_of_length_le (by omega),
          List.drop_append_of_le_length hord]
        simp [slice]
      simp only [List.nil_append, List.map_cons, splice, hsl, splice_shift, List.append_assoc,
        Listhead.encode]
  | cons g hs ih =>
    obtain ⟨hp, hrest⟩ := hord
    have hin := hrest.le_length
    simp only [List.cons_append, splice, slice_append_left hin, ih hrest, List.append_assoc]

/-- **The contents of `w` followed by `e`** are those of `w`, then those of `e`. -/
theorem contents_extend {w : Encbuf} (e : Encbuf) (hw : Layout w) :
    (w.extend e).contents = w.contents ++ e.contents :=
  splice_extend e.lheads (ordered_of_layout hw)

theorem contents_closeList (e : Encbuf) :
    (closeList e).contents = Listhead.encode ⟨0, e.size⟩ ++ e.contents := by
  simp [Encbuf.contents, closeList, splice, slice]

theorem contents_append_reset (b : List UInt8) : (reset.append b).contents = b := by
  simp [Encbuf.contents, reset, append, splice]

/-- The header lengths `listEnd` counts never exceed those of `Rlp.header`. -/
theorem headerBytes_le (n : Nat) : headerBytes n ≤ headerLen n := by
  rcases Nat.lt_or_ge n (2 ^ 64) with h | h
  · rw [headerBytes_eq h]
  · have hle : intsize (UInt64.ofNat n) ≤ 8 := by
      rw [intsize_eq]
      exact byteLen_le (by norm_num) (UInt64.toNat_lt _)
    have hge : 9 ≤ byteLen n := by
      by_contra hlt
      have h8 : 256 ^ byteLen n ≤ 256 ^ 8 := Nat.pow_le_pow_right (by norm_num) (by omega)
      have : n < 2 ^ 64 := calc
        n < 256 ^ byteLen n := lt_pow_byteLen n
        _ ≤ 256 ^ 8 := h8
        _ = 2 ^ 64 := by norm_num
      omega
    unfold headerBytes headerLen
    split <;> omega

/-- A finished buffer's size is its contents' length, when every size fits a `uint64`. -/
theorem length_contents {w : Encbuf} (hw : Layout w) (hsize : w.size < 2 ^ 64) :
    w.contents.length = w.size := by
  rw [Encbuf.contents, length_splice (ordered_of_layout hw)]
  have hsum : (w.lheads.map fun h => h.encode.length) = w.lheads.map fun h => headerBytes h.size :=
    List.map_congr_left fun h hh => length_encode (lt_trans (hw.bounded h hh) hsize)
  rw [hsum, ← hw.lhsize, size]
  omega

/-! ### `toBytes` and `toWriter` -/

namespace Encbuf

/-- The loop of `toBytes` over the headers from position `p` on, into an output buffer
with exactly enough zeroed room after the bytes `done` already placed: it copies every
piece into place and never panics. -/
theorem toBytes_loop (str : List UInt8) {hs : List Listhead} {p : Nat} (done : List UInt8)
    (hord : Ordered str p hs) :
    (do
      let (out, pos, strpos) ← hs.foldlM (toBytesHead str)
        (done ++ List.replicate (splice str p hs).length 0, done.length, p)
      pure (copyAt out pos (str.drop strpos)).1) = some (done ++ splice str p hs) := by
  induction hs generalizing done p with
  | nil =>
    -- only the string data after the last header is left
    have := copyAt_fill done (str.drop p) (0 : UInt8) 0
    simp only [Nat.add_zero, List.replicate_zero, List.append_nil, List.length_drop] at this
    simp [splice, this]
  | cons h hs ih =>
    obtain ⟨hp, hrest⟩ := hord
    have hlen : (slice str p h.offset).length = h.offset - p := by
      have := hrest.le_length
      simp only [length_slice]
      omega
    -- one round copies the data before the header, then writes the header
    have hround : toBytesHead str (done ++ List.replicate (splice str p (h :: hs)).length 0,
        done.length, p) h =
        some (done ++ slice str p h.offset ++ h.encode ++
          List.replicate (splice str h.offset hs).length 0,
          (done ++ slice str p h.offset ++ h.encode).length, h.offset) := by
      have hcopy := copyAt_fill done (slice str p h.offset) (0 : UInt8)
        (h.encode.length + (splice str h.offset hs).length)
      have hwrite := writeAt_fill (done ++ slice str p h.offset) h.encode (0 : UInt8)
        (splice str h.offset hs).length
      simp only [splice, List.length_append, List.append_assoc, hlen] at hcopy hwrite ⊢
      simp only [toBytesHead, hcopy, hwrite, Option.map_some, Nat.add_assoc]
      have hpos : p + (h.offset - p) = h.offset := by omega
      rw [hpos]
    rw [List.foldlM_cons, hround]
    calc _ = some (done ++ slice str p h.offset ++ h.encode ++ splice str h.offset hs) :=
          ih (done ++ slice str p h.offset ++ h.encode) hrest
      _ = _ := by simp [splice, List.append_assoc]

/-- **`toBytes` writes the contents of the buffer**, and never panics. -/
theorem toBytes_eq {w : Encbuf} (hw : Layout w) (hsize : w.size < 2 ^ 64) :
    w.toBytes = some w.contents := by
  have hloop := toBytes_loop w.str [] (ordered_of_layout hw)
  rw [List.nil_append, List.length_nil, ← Encbuf.contents, length_contents hw hsize] at hloop
  rw [toBytes, hloop]
  rfl

/-- The loop of `toBytes` keeps the length of its output buffer. -/
theorem length_toBytes_loop (str : List UInt8) : ∀ (hs : List Listhead)
    (st : List UInt8 × Nat × Nat) {res : List UInt8 × Nat × Nat},
    hs.foldlM (toBytesHead str) st = some res → res.1.length = st.1.length
  | [], st, res, h => by
    cases h
    rfl
  | h :: hs, ⟨out, pos, strpos⟩, res, hfold => by
    rw [List.foldlM_cons] at hfold
    rcases hround : toBytesHead str (out, pos, strpos) h with _ | st₁
    · rw [hround] at hfold
      cases hfold
    rw [hround] at hfold
    -- one round copies and writes in place
    have hlen₁ : st₁.1.length = out.length := by
      simp only [toBytesHead, Option.map_eq_some_iff] at hround
      obtain ⟨out', hw, rfl⟩ := hround
      rw [GoSlice.length_writeAt hw, GoSlice.length_copyAt]
    exact (length_toBytes_loop str hs st₁ hfold).trans hlen₁

/-- **What `toBytes` returns fills the buffer it allocates**: `size` bytes. -/
theorem length_toBytes {w : Encbuf} {out : List UInt8} (h : w.toBytes = some out) :
    out.length = w.size := by
  unfold toBytes at h
  rcases hfold : w.lheads.foldlM (toBytesHead w.str) (List.replicate w.size 0, 0, 0)
    with _ | ⟨out', pos, strpos⟩
  · rw [hfold] at h
    cases h
  rw [hfold] at h
  have hout : (copyAt out' pos (w.str.drop strpos)).1 = out := Option.some.inj h
  rw [← hout, GoSlice.length_copyAt, length_toBytes_loop w.str w.lheads _ hfold,
    List.length_replicate]

theorem toWriterHead_eq (str : List UInt8) (written : List UInt8) {p : Nat} (h : Listhead)
    (hp : p ≤ h.offset) (hin : h.offset ≤ str.length) :
    toWriterHead str (written, p) h = (written ++ slice str p h.offset ++ h.encode, h.offset) := by
  by_cases hbefore : 0 < h.offset - p
  · simp only [toWriterHead, if_pos hbefore, length_slice]
    congr 1
    omega
  · simp only [toWriterHead, if_neg hbefore]
    have hpo : p = h.offset := by omega
    rw [hpo, slice_self, List.append_nil]

/-- The loop of `toWriter` over the headers from position `p` on, after `written`. -/
theorem toWriter_loop (str : List UInt8) {hs : List Listhead} {p : Nat} (written : List UInt8)
    (hord : Ordered str p hs) :
    (let (written, strpos) := hs.foldl (toWriterHead str) (written, p)
     if strpos < str.length then written ++ str.drop strpos else written) =
      written ++ splice str p hs := by
  induction hs generalizing written p with
  | nil =>
    by_cases hlt : p < str.length
    · simp [splice, hlt]
    · simp [splice, hlt, List.drop_eq_nil_of_le (Nat.le_of_not_lt hlt)]
  | cons h hs ih =>
    obtain ⟨hp, hrest⟩ := hord
    rw [List.foldl_cons, toWriterHead_eq str written h hp hrest.le_length, ih _ hrest]
    simp [splice, List.append_assoc]

/-- **`toWriter` writes the contents of the buffer.** -/
theorem toWriter_eq {w : Encbuf} (hw : Layout w) : w.toWriter = w.contents := by
  have := toWriter_loop w.str [] (ordered_of_layout hw)
  rw [List.nil_append] at this
  exact this

end Encbuf

/-! ### The reader -/

theorem Listhead.encode_ne_nil (h : Listhead) : h.encode ≠ [] := by
  unfold Listhead.encode puthead
  split <;> simp

namespace EncReader

/-- The reader `r` has the bytes `R` left to hand out: the rest of its current piece, then
the string data from `strpos` on with the headers from `lhpos` on spliced in. -/
def Rest (r : EncReader) (R : List UInt8) : Prop :=
  match r.buf with
  | none => R = []
  | some w => R.length ≤ w.size ∧ r.piece ≠ some [] ∧
      Ordered w.str r.strpos (w.lheads.drop r.lhpos) ∧
      R = r.piece.getD [] ++ splice w.str r.strpos (w.lheads.drop r.lhpos)

theorem rest_some {r : EncReader} {w : Encbuf} (hbuf : r.buf = some w) {R : List UInt8} :
    Rest r R ↔ R.length ≤ w.size ∧ r.piece ≠ some [] ∧
      Ordered w.str r.strpos (w.lheads.drop r.lhpos) ∧
      R = r.piece.getD [] ++ splice w.str r.strpos (w.lheads.drop r.lhpos) := by
  simp only [Rest, hbuf]

/-- A call of `next` with no piece pending: EOF when nothing is left, else a non-empty
piece that is what comes next. -/
theorem next_fresh {r : EncReader} {w : Encbuf} (hbuf : r.buf = some w) (hpiece : r.piece = none)
    (hord : Ordered w.str r.strpos (w.lheads.drop r.lhpos)) :
    (r.next = (none, r) ∧ splice w.str r.strpos (w.lheads.drop r.lhpos) = []) ∨
    ∃ p r', r.next = (some p, r') ∧ p ≠ [] ∧ r'.buf = some w ∧ r'.piece = none ∧
      Ordered w.str r'.strpos (w.lheads.drop r'.lhpos) ∧
      splice w.str r.strpos (w.lheads.drop r.lhpos) =
        p ++ splice w.str r'.strpos (w.lheads.drop r'.lhpos) := by
  cases hhead : w.lheads[r.lhpos]? with
  | some head =>
    -- the next header is `head`
    obtain ⟨hlt, hget⟩ := List.getElem?_eq_some_iff.mp hhead
    have hdrop : w.lheads.drop r.lhpos = head :: w.lheads.drop (r.lhpos + 1) := by
      rw [List.drop_eq_getElem_cons hlt, hget]
    rw [hdrop] at hord ⊢
    obtain ⟨hp, hrest⟩ := hord
    have hin := hrest.le_length
    right
    by_cases hbefore : 0 < head.offset - r.strpos
    · -- the string data before the header comes first
      have hpos : r.strpos + (head.offset - r.strpos) = head.offset := by omega
      refine ⟨slice w.str r.strpos head.offset, { r with strpos := head.offset }, ?_, ?_, hbuf,
        hpiece, ?_, ?_⟩
      · simp [next, hbuf, hpiece, hhead, hbefore, hpos]
      · rw [← List.length_pos_iff, length_slice]
        omega
      · simp only [hdrop]
        exact ⟨le_refl _, hrest⟩
      · simp [hdrop, splice, slice_self]
    · -- the header itself
      have hpos : r.strpos = head.offset := by omega
      refine ⟨head.encode, { r with lhpos := r.lhpos + 1 }, ?_, head.encode_ne_nil, hbuf,
        hpiece, ?_, ?_⟩
      · simp [next, hbuf, hpiece, hhead, hbefore]
      · simp only [hpos]
        exact hrest
      · simp [splice, hpos, slice_self]
  | none =>
    -- all headers are done
    have hdrop : w.lheads.drop r.lhpos = [] :=
      List.drop_eq_nil_of_le (List.getElem?_eq_none_iff.mp hhead)
    rw [hdrop] at hord ⊢
    by_cases hend : r.strpos < w.str.length
    · right
      refine ⟨w.str.drop r.strpos, { r with strpos := w.str.length }, ?_, ?_, hbuf, hpiece, ?_, ?_⟩
      · simp [next, hbuf, hpiece, hhead, hend]
      · simp only [ne_eq, List.drop_eq_nil_iff]
        omega
      · simp only [hdrop]
        exact le_refl _
      · simp [hdrop, splice]
    · left
      refine ⟨by simp [next, hbuf, hpiece, hhead, hend], ?_⟩
      simp only [splice]
      exact List.drop_eq_nil_of_le (by omega)

/-- **One call of `next`**: EOF when nothing is left, else a non-empty piece that is what
comes next, after which the reader has the rest left, also when only part of the piece
is taken. -/
theorem next_rest {r : EncReader} {R : List UInt8} (hr : Rest r R) :
    match r.next with
    | (none, _) => R = []
    | (some q, r') => q ≠ [] ∧ ∃ S, R = q ++ S ∧ Rest { r' with piece := none } S ∧
        ∀ k < q.length, Rest { r' with piece := some (q.drop k) } (q.drop k ++ S) := by
  cases hbuf : r.buf with
  | none =>
    simp only [Rest, hbuf] at hr
    simp [next, hbuf, hr]
  | some w =>
    obtain ⟨hlen, hne, hord, hR⟩ := (rest_some hbuf).mp hr
    -- what is left after a piece `q`, as a reader with the rest of `q` pending
    have hafter : ∀ (q : List UInt8) (r' : EncReader), r'.buf = some w →
        Ordered w.str r'.strpos (w.lheads.drop r'.lhpos) →
        R = q ++ splice w.str r'.strpos (w.lheads.drop r'.lhpos) → q ≠ [] →
        q ≠ [] ∧ ∃ S, R = q ++ S ∧ Rest { r' with piece := none } S ∧
          ∀ k < q.length, Rest { r' with piece := some (q.drop k) } (q.drop k ++ S) := by
      intro q r' hbuf' hord' hR' hq
      refine ⟨hq, _, hR', ?_, fun k hk => ?_⟩
      · refine (rest_some (r := { r' with piece := none }) hbuf').mpr ⟨?_, by simp, hord', by simp⟩
        rw [hR', List.length_append] at hlen
        omega
      · refine (rest_some (r := { r' with piece := some (q.drop k) }) hbuf').mpr
          ⟨?_, ?_, hord', by simp⟩
        · rw [hR', List.length_append] at hlen
          simp only [List.length_append, List.length_drop]
          omega
        · simp only [ne_eq, Option.some.injEq, List.drop_eq_nil_iff]
          omega
    cases hpiece : r.piece with
    | some q =>
      -- the pending piece is handed out again
      have hnext : r.next = (some q, r) := by simp [next, hbuf, hpiece]
      rw [hnext]
      refine hafter q r hbuf hord (by simpa [hpiece] using hR) ?_
      intro hq
      exact hne (hpiece ▸ hq ▸ rfl)
    | none =>
      rw [hpiece, Option.getD_none, List.nil_append] at hR
      rcases next_fresh hbuf hpiece hord with ⟨hnext, hnil⟩ | ⟨p, r', hnext, hp, hbuf', hpiece', hord', hsplice⟩
      · rw [hnext]
        exact hR.trans hnil
      · rw [hnext]
        exact hafter p r' hbuf' hord' (hR.trans hsplice) hp

/-- **The loop of `Read`**: with `room` bytes of buffer it reads the first `room` bytes of
what is left, reports EOF exactly when that is everything, and leaves the rest, provided
its fuel exceeds the number of bytes left. -/
theorem readLoop_rest : ∀ (fuel : Nat) {r : EncReader} {R : List UInt8} (room : Nat)
    (acc : List UInt8), Rest r R → R.length < fuel →
    (readLoop fuel r room acc).1 = (acc ++ R.take room, decide (R.length ≤ room)) ∧
      Rest (readLoop fuel r room acc).2 (R.drop room)
  | 0, _, _, _, _, _, hfuel => absurd hfuel (Nat.not_lt_zero _)
  | fuel + 1, r, R, room, acc, hr, hfuel => by
    have hstep := next_rest hr
    rcases hnext : r.next with ⟨_ | q, r'⟩
    · -- EOF: nothing was left
      rw [hnext] at hstep
      subst hstep
      simp [readLoop, hnext, Rest]
    · rw [hnext] at hstep
      obtain ⟨hq, S, hR, hS, hpart⟩ := hstep
      subst hR
      by_cases hfit : room < q.length
      · -- the piece does not fit: keep the rest of it for the next call
        have hmin : min room q.length = room := by omega
        have hout : readLoop (fuel + 1) r room acc =
            ((acc ++ q.take room, false), { r' with piece := some (q.drop room) }) := by
          simp [readLoop, hnext, hmin, hfit]
        rw [hout, List.take_append_of_le_length hfit.le, List.drop_append_of_le_length hfit.le]
        refine ⟨?_, hpart room hfit⟩
        simp only [List.length_append, Prod.mk.injEq, true_and]
        symm
        simp only [decide_eq_false_iff_not]
        omega
      · -- the piece fits: copy it and go on with what follows it
        have hmin : min room q.length = q.length := by omega
        have hout : readLoop (fuel + 1) r room acc =
            readLoop fuel { r' with piece := none } (room - q.length) (acc ++ q) := by
          simp [readLoop, hnext, hmin]
        have hq1 : 1 ≤ q.length := List.length_pos_iff.mpr hq
        have hfuel' : S.length < fuel := by
          simp only [List.length_append] at hfuel
          omega
        obtain ⟨hval, hrest⟩ := readLoop_rest fuel (room - q.length) (acc ++ q) hS hfuel'
        rw [hout, hval]
        have hdrop : (q ++ S).drop room = S.drop (room - q.length) := by
          rw [List.drop_append, List.drop_eq_nil_of_le (by omega), List.nil_append]
        refine ⟨?_, hdrop ▸ hrest⟩
        rw [List.take_append, List.take_of_length_le (show q.length ≤ room by omega),
          List.append_assoc]
        simp only [List.length_append, Prod.mk.injEq, true_and]
        simp only [decide_eq_decide]
        omega

/-- **One call of `Read` with a buffer of `k` bytes.** -/
theorem read_rest {r : EncReader} {R : List UInt8} (hr : Rest r R) (k : Nat) :
    (r.read k).1 = (R.take k, decide (R.length ≤ k)) ∧ Rest (r.read k).2 (R.drop k) := by
  have hfuel : R.length < r.pieceBound := by
    cases hbuf : r.buf with
    | none =>
      simp only [Rest, hbuf] at hr
      simp [pieceBound, hbuf, hr]
    | some w =>
      have := ((rest_some hbuf).mp hr).1
      simp only [pieceBound, hbuf]
      omega
  exact readLoop_rest r.pieceBound k [] hr hfuel

/-- **Reading with any sequence of buffer sizes**: the bytes read are the first
`ks.sum` bytes of what is left, and EOF is reported exactly when the buffers offered
hold all of it. -/
theorem readAll_eq {r : EncReader} {R : List UInt8} (hr : Rest r R) (ks : List Nat) :
    r.readAll ks = if ks ≠ [] ∧ R.length ≤ ks.sum then (R, true) else (R.take ks.sum, false) := by
  induction ks generalizing r R with
  | nil => simp [readAll]
  | cons k ks ih =>
    have hstep := read_rest hr k
    rcases hread : r.read k with ⟨⟨out, eof⟩, r'⟩
    rw [hread] at hstep
    obtain ⟨hval, hrest⟩ := hstep
    obtain ⟨rfl, rfl⟩ := Prod.mk.inj hval
    simp only [readAll, hread]
    by_cases hk : R.length ≤ k
    · -- EOF on this call
      have hcond : k :: ks ≠ [] ∧ R.length ≤ (k :: ks).sum := by
        simp only [ne_eq, reduceCtorEq, not_false_eq_true, List.sum_cons, true_and]
        omega
      rw [if_pos hcond]
      simp [hk, List.take_of_length_le hk]
    · rw [ih hrest]
      simp only [hk, decide_false, Bool.false_eq_true, if_false, List.length_drop, List.sum_cons]
      by_cases hrest_fits : ks ≠ [] ∧ R.length - k ≤ ks.sum
      · have hcond : k :: ks ≠ [] ∧ R.length ≤ k + ks.sum := ⟨by simp, by omega⟩
        rw [if_pos hrest_fits]
        simp [hcond]
      · have hcond : ¬ (k :: ks ≠ [] ∧ R.length ≤ k + ks.sum) := by
          rintro ⟨-, hle⟩
          apply hrest_fits
          refine ⟨?_, by omega⟩
          rintro rfl
          simp only [List.sum_nil] at hle
          omega
        rw [if_neg hrest_fits]
        simp only [hcond, if_false, List.take_add]

/-- The reader `EncodeToReader` returns has the whole contents left. -/
theorem rest_start {w : Encbuf} (hw : Layout w) (hsize : w.size < 2 ^ 64) :
    Rest ⟨some w, 0, 0, none⟩ w.contents := by
  refine (rest_some (r := ⟨some w, 0, 0, none⟩) rfl).mpr ⟨?_, by simp, ?_, by simp [Encbuf.contents]⟩
  · rw [length_contents hw hsize]
  · exact ordered_of_layout hw

end EncReader

/-! ### The buffers of items -/

theorem le_7f_iff (x : UInt8) : x ≤ 0x7F ↔ x < 0x80 := by
  rw [UInt8.le_iff_toNat_le, UInt8.lt_iff_toNat_lt]
  simp only [UInt8.reduceToNat]
  omega

theorem length_encodeStringHeader (n : Nat) :
    (reset.encodeStringHeader n).str.length = headerBytes n := by
  unfold encodeStringHeader headerBytes
  split_ifs <;> simp [append, reset, Nat.add_comm]

theorem encodeStringHeader_reset {n : Nat} (hn : n < 2 ^ 64) :
    reset.encodeStringHeader n = reset.append (header 0x80 0xB7 n) := by
  unfold encodeStringHeader header
  by_cases h56 : n < 56
  · simp only [if_pos h56]
  · simp only [if_neg h56, putint_eq, UInt64.toNat_ofNat_of_lt' hn, length_lowBytes]

/-- The buffer of a byte string holds its encoding, when its length fits a `uint64`. -/
theorem contents_encodeString {b : List UInt8} (hb : b.length < 2 ^ 64) :
    (reset.encodeString b).contents = (Item.bytes b).encode := by
  rw [encode_bytes]
  unfold encodeString
  by_cases hsingle : b.length = 1 ∧ b.headD 0 < 0x80
  · rw [if_pos ⟨hsingle.1, (le_7f_iff _).mpr hsingle.2⟩, if_pos hsingle, contents_append_reset]
    obtain ⟨x, rfl⟩ := List.length_eq_one_iff.mp hsingle.1
    rfl
  · have hnot : ¬ (b.length = 1 ∧ b.headD 0 ≤ 0x7F) := by
      rwa [le_7f_iff]
    rw [if_neg hnot, if_neg hsingle, encodeStringHeader_reset hb]
    simp [Encbuf.contents, append, reset, splice]

/-- The buffer of a byte string is no longer than its encoding. -/
theorem size_encodeString_le (b : List UInt8) :
    (reset.encodeString b).size ≤ (Item.bytes b).encode.length := by
  rw [encode_bytes]
  have hhead := length_encodeStringHeader b.length
  have hle := headerBytes_le b.length
  unfold encodeString
  split_ifs with h₁ h₂ h₂
  · simp [size, append, reset, h₁]
  · simp [size, append, reset, h₁]
  · exact absurd ⟨h₂.1, (le_7f_iff _).mpr h₂.2⟩ h₁
  · have hlh : (reset.encodeStringHeader b.length).lhsize = 0 := by
      unfold encodeStringHeader
      split_ifs <;> rfl
    simp only [size, append, List.length_append, length_header, hlh]
    omega

mutual
/-- **The buffer an item is written to**: the writer never fails, the buffer is no larger
than the item's encoding, and its contents are that encoding when its size fits a
`uint64`. -/
theorem written_item : ∀ (t : Item), ∃ w, writeValue t.toValue reset = .ok w ∧ Layout w ∧
    w.size ≤ t.encode.length ∧ (w.size < 2 ^ 64 → w.contents = t.encode)
  | .bytes b => by
    have hw : writeValue (Item.bytes b).toValue reset = .ok (reset.encodeString b) := by
      rw [Item.toValue, writeValue]
    refine ⟨reset.encodeString b, hw, layout_writeValue _ hw, size_encodeString_le b,
      fun hsize => contents_encodeString ?_⟩
    have hle : b.length ≤ (reset.encodeString b).size := by
      unfold encodeString
      split_ifs with h
      · simp [size, append, reset, h.1]
      · simp only [size, append, List.length_append]
        omega
    omega
  | .list ts => by
    obtain ⟨e, he, hlay, hle, hcont⟩ := written_items ts
    have hsize : (closeList e).size = e.size + headerBytes e.size := by
      simp only [closeList, size]
      omega
    refine ⟨closeList e, ?_, layout_closeList hlay, ?_, fun hfit => ?_⟩
    · rw [Item.toValue, writeValue_list_reset, he]
      rfl
    · -- the header counted is no longer than the canonical one
      have h₁ := headerBytes_le e.size
      have h₂ := headerLen_mono hle
      rw [hsize, encode_list, List.length_append, length_header]
      omega
    · have hefit : e.size < 2 ^ 64 := by omega
      have hlen := length_contents hlay hefit
      rw [hcont hefit] at hlen
      rw [contents_closeList, hcont hefit, encode_list, Listhead.encode,
        puthead_eq_header _ _ hefit, hlen]
/-- The buffer the children of a list are written to. -/
theorem written_items : ∀ (ts : List Item), ∃ e,
    writeValues (ts.map Item.toValue) reset = .ok e ∧ Layout e ∧
      e.size ≤ (Item.encodeList ts).length ∧ (e.size < 2 ^ 64 → e.contents = Item.encodeList ts)
  | [] => ⟨reset, rfl, layout_reset, by simp [size, reset], fun _ => rfl⟩
  | t :: ts => by
    obtain ⟨w, hw, hlw, hsw, hcw⟩ := written_item t
    obtain ⟨e, he, hle, hse, hce⟩ := written_items ts
    refine ⟨w.extend e, ?_, layout_extend hlw hle, ?_, fun hfit => ?_⟩
    · rw [List.map_cons, writeValues_cons_reset, hw]
      simp [Except.bind, he, Except.map]
    · rw [size_extend, encodeList_cons, List.length_append]
      omega
    · rw [size_extend] at hfit
      rw [contents_extend e hlw, hcw (by omega), hce (by omega), encodeList_cons]
end

/-! ### The entry points -/

/-- **The three outputs of the encoder agree.** For a value the writers accept, whose
buffer size fits a `uint64`, `EncodeToBytes` returns the contents of the buffer, `Encode`
writes the same bytes, and the reader of `EncodeToReader` announces their length and
hands them out for every sequence of buffer sizes `ks`: the first `ks.sum` bytes, with
EOF reported exactly when the buffers hold all of them. -/
theorem encode_outputs_agree (v : Value) {w : Encbuf} (hw : writeValue v reset = .ok w)
    (hsize : w.size < 2 ^ 64) :
    ∃ B, encodeToBytes v = .ok (some B) ∧ encode v = .ok B ∧
      ∃ r, encodeToReader v = .ok (B.length, r) ∧
        ∀ ks : List Nat, r.readAll ks =
          if ks ≠ [] ∧ B.length ≤ ks.sum then (B, true) else (B.take ks.sum, false) := by
  have hlay := layout_writeValue v hw
  refine ⟨w.contents, ?_, ?_, ⟨some w, 0, 0, none⟩, ?_, EncReader.readAll_eq
    (EncReader.rest_start hlay hsize)⟩
  · simp [encodeToBytes, hw, Except.map, toBytes_eq hlay hsize]
  · simp [encode, hw, Except.map, toWriter_eq hlay]
  · simp [encodeToReader, hw, Except.map, length_contents hlay hsize]

theorem encode_outputs_agree_list :
    ∃ B, encodeToBytes (.list [.uint 1, .string [0x61, 0x62]]) = .ok (some B) ∧
      encode (.list [.uint 1, .string [0x61, 0x62]]) = .ok B ∧
      ∃ r, encodeToReader (.list [.uint 1, .string [0x61, 0x62]]) = .ok (B.length, r) ∧
        ∀ ks : List Nat, r.readAll ks =
          if ks ≠ [] ∧ B.length ≤ ks.sum then (B, true) else (B.take ks.sum, false) :=
  encode_outputs_agree (.list [.uint 1, .string [0x61, 0x62]])
    (w := ⟨[0x01, 0x82, 0x61, 0x62], [⟨0, 4⟩], 1⟩) (by rfl) (by decide)

/-- **The encoder writes the canonical encoding of every item** whose encoding fits a
`uint64`. -/
theorem encodeToBytes_item (t : Item) (hsize : t.encode.length < 2 ^ 64) :
    encodeToBytes t.toValue = .ok (some t.encode) := by
  obtain ⟨w, hw, hlay, hle, hcont⟩ := written_item t
  have hfit : w.size < 2 ^ 64 := lt_of_le_of_lt hle hsize
  rw [← hcont hfit]
  simp [encodeToBytes, hw, Except.map, toBytes_eq hlay hfit]

/-! ### Values written as items -/

/-- **`v` is written as the item `t`**: the writer accepts `v`, and its buffer holds the
encoding of `t` whenever its size fits a `uint64`. `Rlp.written_item` says this of
`t.toValue`; other Go values are written as items too: a `RawValue` holding an
encoding, a `string`, an unsigned integer. -/
def WritesAs (v : Value) (t : Item) : Prop :=
  ∃ w, writeValue v reset = .ok w ∧ Layout w ∧ w.size ≤ t.encode.length ∧
    (w.size < 2 ^ 64 → w.contents = t.encode)

theorem writesAs_toValue (t : Item) : WritesAs t.toValue t := written_item t

/-- A buffer of plain bytes, with no list in it. -/
theorem writesAs_of_append {v : Value} {t : Item} (h : writeValue v reset = .ok (reset.append t.encode)) :
    WritesAs v t :=
  ⟨_, h, layout_append _ layout_reset, by simp [size, append, reset],
    fun _ => contents_append_reset _⟩

theorem writesAs_raw (t : Item) : WritesAs (.raw t.encode) t := writesAs_of_append rfl

/-- A Go `string` is written as the string item of its bytes. -/
theorem writesAs_string (b : List UInt8) : WritesAs (.string b) (.bytes b) := by
  -- `writeString` is the rule of `encodeString`, written out again
  have hsame : writeValue (.string b) reset = writeValue (Item.bytes b).toValue reset := by
    simp only [Item.toValue, writeValue, writeString, encodeString]
  obtain ⟨w, hw, hrest⟩ := written_item (.bytes b)
  exact ⟨w, hsame.trans hw, hrest⟩

/-- The elements of a slice, each written as an item, are written as the encodings of the
items one after the other. -/
theorem writesAs_values {vs : List Value} {ts : List Item} (h : List.Forall₂ WritesAs vs ts) :
    ∃ e, writeValues vs reset = .ok e ∧ Layout e ∧ e.size ≤ (Item.encodeList ts).length ∧
      (e.size < 2 ^ 64 → e.contents = Item.encodeList ts) := by
  induction h with
  | nil => exact ⟨reset, rfl, layout_reset, by simp [size, reset], fun _ => rfl⟩
  | @cons v t vs ts hvt _ ih =>
    obtain ⟨w, hw, hlw, hsw, hcw⟩ := hvt
    obtain ⟨e, he, hle, hse, hce⟩ := ih
    refine ⟨w.extend e, ?_, layout_extend hlw hle, ?_, fun hfit => ?_⟩
    · rw [writeValues_cons_reset, hw]
      simp [Except.bind, he, Except.map]
    · rw [size_extend, encodeList_cons, List.length_append]
      omega
    · rw [size_extend] at hfit
      rw [contents_extend e hlw, hcw (by omega), hce (by omega), encodeList_cons]

/-- **A list of values written as items is written as the list of the items.** -/
theorem writesAs_list {vs : List Value} {ts : List Item} (h : List.Forall₂ WritesAs vs ts) :
    WritesAs (.list vs) (.list ts) := by
  obtain ⟨e, he, hlay, hle, hcont⟩ := writesAs_values h
  have hsize : (closeList e).size = e.size + headerBytes e.size := by
    simp only [closeList, size]
    omega
  refine ⟨closeList e, ?_, layout_closeList hlay, ?_, fun hfit => ?_⟩
  · rw [writeValue_list_reset, he]
    rfl
  · have h₁ := headerBytes_le e.size
    have h₂ := headerLen_mono hle
    rw [hsize, encode_list, List.length_append, length_header]
    omega
  · have hefit : e.size < 2 ^ 64 := by omega
    have hlen := length_contents hlay hefit
    rw [hcont hefit] at hlen
    rw [contents_closeList, hcont hefit, encode_list, Listhead.encode,
      puthead_eq_header _ _ hefit, hlen]

/-- What `EncodeToBytes` returns for a value written as an item. -/
theorem encodeToBytes_of_writesAs {v : Value} {t : Item} (h : WritesAs v t)
    (hsize : t.encode.length < 2 ^ 64) : encodeToBytes v = .ok (some t.encode) := by
  obtain ⟨w, hw, hlay, hle, hcont⟩ := h
  have hfit : w.size < 2 ^ 64 := lt_of_le_of_lt hle hsize
  rw [← hcont hfit]
  simp [encodeToBytes, hw, Except.map, toBytes_eq hlay hfit]

end Rlp
