import Mathlib

/-!
# Matching subprotocols

After the handshake, both ends of a connection run `matchProtocols` over their own
protocols and the capabilities the other end announced. Every matched protocol gets a
range of message codes above the `baseProtocolLength` codes of the base protocol: a
message of code `c` of a protocol goes out as `c + offset` (`protoRW.WriteMsg`), the
receiving `Peer` routes it to the protocol whose range holds it (`Peer.getProto`), and
that protocol reads `c` again (`protoRW.ReadMsg`).

`matchProtocols` sorts the capabilities by name and version and hands out offsets in that
order. A name matched again, in a higher version, takes back the range of the earlier
match, by subtracting its length from the running offset: the earlier match is always the
last range handed out, since the capabilities of one name are next to each other.

| stage | what it gives | theorem |
|---|---|---|
| one capability | the selection of the capabilities before it, and it | `P2p.Selection.step` |
| the loop | the selection of all capabilities | `P2p.matchLoop_spec` |
| `matchProtocols` | the highest common version of each name, ranges tiled by name | `P2p.matchProtocols_selection` |
| both ends | the same versions at the same offsets | `P2p.Selection.agree` |
| `WriteMsg`, `getProto`, `ReadMsg` | the code, to the protocol of its name | `P2p.route_writeCode` |

The offsets are `uint64` sums. They tile the codes only while the sum of the matched
lengths stays below `2 ^ 64`: past it, a range wraps around and `getProto` no longer finds
its codes.
-/

namespace P2p

/-! ### The model -/

/-- `Protocol`: the fields that matching and routing read. A Go `string` is its bytes,
compared byte by byte. -/
structure Protocol where
  name : List UInt8
  version : Nat
  length : UInt64
  deriving DecidableEq, Repr

/-- `Cap`: a capability announced in the handshake. -/
structure Cap where
  name : List UInt8
  version : Nat
  deriving DecidableEq, Repr

/-- `Protocol.cap()`: the capability a protocol announces. -/
def Protocol.cap (p : Protocol) : Cap := ⟨p.name, p.version⟩

/-- `baseProtocolLength`: the message codes of the base protocol. -/
def baseProtocolLength : UInt64 := 16

/-- `protoRW`: a matched protocol and the first message code of its range. -/
structure ProtoRW where
  protocol : Protocol
  offset : UInt64
  deriving DecidableEq, Repr

/-- `capsByNameAndVersion.Less`. -/
def capLess (a b : Cap) : Bool :=
  decide (a.name < b.name) || (a.name == b.name && decide (a.version < b.version))

/-- The order `sort.Sort` puts capabilities in: no later capability is `Less` than an
earlier one. -/
def CapLe (a b : Cap) : Prop := capLess b a = false

instance : DecidableRel CapLe := fun a b => inferInstanceAs (Decidable (capLess b a = false))

/-- `sort.Sort(capsByNameAndVersion(caps))`. The sort of the library is not stable, but two
capabilities that neither orders before the other are equal, so every sorting algorithm
returns the same list (`P2p.sortCaps_unique`); insertion sort, which `sort.Sort` runs on
short slices, computes it. -/
def sortCaps (caps : List Cap) : List Cap :=
  caps.insertionSort CapLe

/-- The first protocol that matches a capability's name and version. -/
def findProto (protocols : List Protocol) (cap : Cap) : Option Protocol :=
  protocols.find? fun p => p.name == cap.name && p.version == cap.version

/-- `result[name]`, of the map the matches are kept in. -/
def lookupRW (result : List ProtoRW) (name : List UInt8) : Option ProtoRW :=
  result.find? fun rw => rw.protocol.name == name

/-- `result[rw.Name] = rw`. -/
def setRW (result : List ProtoRW) (rw : ProtoRW) : List ProtoRW :=
  result.filter (fun old => old.protocol.name != rw.protocol.name) ++ [rw]

/-- One round of the loop `outer` of `matchProtocols`, on the running offset and the
matches so far: the capability `cap`, matched by the first protocol of its name and
version, if there is one. -/
def matchStep (protocols : List Protocol) (st : UInt64 × List ProtoRW) (cap : Cap) :
    UInt64 × List ProtoRW :=
  match findProto protocols cap with
  | none => st
  | some proto =>
    -- if an old protocol version matched, revert it
    let offset := match lookupRW st.2 cap.name with
      | some old => st.1 - old.protocol.length
      | none => st.1
    (offset + proto.length, setRW st.2 ⟨proto, offset⟩)

/-- `matchProtocols(protocols, caps, rw)`: the matches, one per name, kept in a map. -/
def matchProtocols (protocols : List Protocol) (caps : List Cap) : List ProtoRW :=
  ((sortCaps caps).foldl (matchStep protocols) (baseProtocolLength, [])).2

/-- `Peer.getProto(code)`, over `p.running` enumerated in some order. -/
def getProto (running : List ProtoRW) (code : UInt64) : Option ProtoRW :=
  running.find? fun rw => decide (rw.offset ≤ code) && decide (code < rw.offset + rw.protocol.length)

/-- The code `protoRW.WriteMsg` sends for a message of code `code`, or `none` for the
error `errInvalidMsgCode`. -/
def ProtoRW.writeCode (rw : ProtoRW) (code : UInt64) : Option UInt64 :=
  if code ≥ rw.protocol.length then none else some (code + rw.offset)

/-- The code `protoRW.ReadMsg` returns for a message routed to it. -/
def ProtoRW.readCode (rw : ProtoRW) (code : UInt64) : UInt64 := code - rw.offset

/-! ### The order of capabilities -/

theorem capLe_iff {a b : Cap} :
    CapLe a b ↔ a.name < b.name ∨ (a.name = b.name ∧ a.version ≤ b.version) := by
  unfold CapLe capLess
  rcases Std.lt_trichotomy a.name b.name with hlt | heq | hgt
  · have hn : ¬ b.name < a.name := List.lt_asymm hlt
    have hne : b.name ≠ a.name := fun h => List.lt_irrefl _ (h ▸ hlt)
    simp [hlt, hn, hne]
  · simp [heq, List.lt_irrefl]
  · have hn : ¬ a.name < b.name := List.lt_asymm hgt
    have hne : b.name ≠ a.name := fun h => List.lt_irrefl _ (h ▸ hgt)
    simp [hgt, hn, Ne.symm hne]

theorem CapLe.name_le {a b : Cap} (h : CapLe a b) : a.name ≤ b.name := by
  rcases capLe_iff.mp h with hlt | ⟨heq, -⟩
  · exact Std.le_of_lt hlt
  · exact heq ▸ List.le_refl _

theorem CapLe.version_le {a b : Cap} (h : CapLe a b) (hname : a.name = b.name) :
    a.version ≤ b.version := by
  rcases capLe_iff.mp h with hlt | ⟨-, hv⟩
  · exact absurd (hname ▸ hlt) (List.lt_irrefl _)
  · exact hv

theorem capLe_trans {a b c : Cap} (hab : CapLe a b) (hbc : CapLe b c) : CapLe a c := by
  rw [capLe_iff] at *
  rcases hab with hab | ⟨hab, hv₁⟩ <;> rcases hbc with hbc | ⟨hbc, hv₂⟩
  · exact .inl (List.lt_trans hab hbc)
  · exact .inl (hbc ▸ hab)
  · exact .inl (hab ▸ hbc)
  · exact .inr ⟨hab.trans hbc, hv₁.trans hv₂⟩

theorem capLe_total (a b : Cap) : CapLe a b ∨ CapLe b a := by
  rw [capLe_iff, capLe_iff]
  rcases Std.lt_trichotomy a.name b.name with hlt | heq | hgt
  · exact .inl (.inl hlt)
  · rcases Nat.le_total a.version b.version with hv | hv
    · exact .inl (.inr ⟨heq, hv⟩)
    · exact .inr (.inr ⟨heq.symm, hv⟩)
  · exact .inr (.inl hgt)

instance : Std.Total CapLe := ⟨capLe_total⟩

instance : IsTrans Cap CapLe := ⟨fun _ _ _ => capLe_trans⟩

theorem sortCaps_sorted (caps : List Cap) : (sortCaps caps).Pairwise CapLe :=
  List.pairwise_insertionSort CapLe caps

theorem mem_sortCaps {caps : List Cap} {c : Cap} : c ∈ sortCaps caps ↔ c ∈ caps :=
  List.mem_insertionSort CapLe

theorem findProto_some {protocols : List Protocol} {cap : Cap} {p : Protocol}
    (h : findProto protocols cap = some p) : p ∈ protocols ∧ p.cap = cap := by
  have hp := List.find?_some h
  simp only [Bool.and_eq_true, beq_iff_eq] at hp
  exact ⟨List.mem_of_find?_eq_some h, by rw [Protocol.cap, hp.1, hp.2]⟩

theorem findProto_none {protocols : List Protocol} {cap : Cap}
    (h : findProto protocols cap = none) : ∀ p ∈ protocols, p.cap ≠ cap := by
  intro p hp hcap
  have := List.find?_eq_none.mp h p hp
  simp [← hcap, Protocol.cap] at this

theorem lookupRW_some {result : List ProtoRW} {name : List UInt8} {old : ProtoRW}
    (h : lookupRW result name = some old) : old ∈ result ∧ old.protocol.name = name :=
  ⟨List.mem_of_find?_eq_some h, by simpa using List.find?_some h⟩

theorem lookupRW_none {result : List ProtoRW} {name : List UInt8}
    (h : lookupRW result name = none) : ∀ rw ∈ result, rw.protocol.name ≠ name := by
  intro rw hrw
  simpa using List.find?_eq_none.mp h rw hrw

theorem setRW_of_forall_ne {result : List ProtoRW} {rw : ProtoRW}
    (h : ∀ old ∈ result, old.protocol.name ≠ rw.protocol.name) : setRW result rw = result ++ [rw] := by
  rw [setRW, List.filter_eq_self.mpr]
  intro old hold
  simpa using h old hold

/-! ### What `matchProtocols` is to compute -/

/-- A capability both ends have: announced by the other end, and one of our protocols. -/
def Matched (protocols : List Protocol) (caps : List Cap) (c : Cap) : Prop :=
  c ∈ caps ∧ ∃ p ∈ protocols, p.cap = c

/-- The sum of the lengths of the ranges, in `uint64` arithmetic. -/
def totalLength (rs : List ProtoRW) : UInt64 := (rs.map (·.protocol.length)).sum

@[simp] theorem totalLength_append_singleton (rs : List ProtoRW) (rw : ProtoRW) :
    totalLength (rs ++ [rw]) = totalLength rs + rw.protocol.length := by
  simp [totalLength]

/-- The ranges of `rs` follow each other from the code `off`. -/
def Tiled : UInt64 → List ProtoRW → Prop
  | _, [] => True
  | off, rw :: rs => rw.offset = off ∧ Tiled (off + rw.protocol.length) rs

theorem tiled_append_singleton : ∀ (off : UInt64) (rs : List ProtoRW) (rw : ProtoRW),
    Tiled off (rs ++ [rw]) ↔ Tiled off rs ∧ rw.offset = off + totalLength rs
  | off, [], rw => by simp [Tiled, totalLength]
  | off, r :: rs, rw => by
    simp only [List.cons_append, Tiled, tiled_append_singleton (off + r.protocol.length) rs rw,
      totalLength, List.map_cons, List.sum_cons, UInt64.add_assoc, and_assoc]

/-- **What `matchProtocols` is to compute** from the capabilities `caps`: one match for
each name of a capability both ends have, in increasing order of names, with the highest
version of that name both ends have, and ranges that follow each other from
`baseProtocolLength`. -/
structure Selection (protocols : List Protocol) (caps : List Cap) (rs : List ProtoRW) :
    Prop where
  sorted : rs.Pairwise fun a b => a.protocol.name < b.protocol.name
  matched : ∀ rw ∈ rs, rw.protocol ∈ protocols ∧ rw.protocol.cap ∈ caps
  highest : ∀ rw ∈ rs, ∀ c, Matched protocols caps c → c.name = rw.protocol.name →
    c.version ≤ rw.protocol.version
  cover : ∀ c, Matched protocols caps c → ∃ rw ∈ rs, rw.protocol.name = c.name
  tiled : Tiled baseProtocolLength rs

section Step

variable {protocols : List Protocol} {done : List Cap} {cap : Cap}

theorem matched_append_singleton {c : Cap} :
    Matched protocols (done ++ [cap]) c ↔
      Matched protocols done c ∨ (c = cap ∧ ∃ p ∈ protocols, p.cap = cap) := by
  unfold Matched
  constructor
  · rintro ⟨hc, hp⟩
    rcases List.mem_append.mp hc with hc | hc
    · exact .inl ⟨hc, hp⟩
    · obtain rfl := List.mem_singleton.mp hc
      exact .inr ⟨rfl, hp⟩
  · rintro (⟨hc, hp⟩ | ⟨rfl, hp⟩)
    · exact ⟨List.mem_append_left _ hc, hp⟩
    · exact ⟨List.mem_append_right _ (List.mem_singleton_self _), hp⟩

/-- A capability no protocol matches changes nothing. -/
theorem Selection.skip {rs : List ProtoRW} (hsel : Selection protocols done rs)
    (hnone : ∀ p ∈ protocols, p.cap ≠ cap) : Selection protocols (done ++ [cap]) rs := by
  -- the capabilities both ends have are those of `done`
  have hsame : ∀ c, Matched protocols (done ++ [cap]) c → Matched protocols done c := by
    intro c hc
    rcases matched_append_singleton.mp hc with hc | ⟨-, p, hp, hcap⟩
    · exact hc
    · exact absurd hcap (hnone p hp)
  exact ⟨hsel.sorted,
    fun rw hrw => ⟨(hsel.matched rw hrw).1, List.mem_append_left _ (hsel.matched rw hrw).2⟩,
    fun rw hrw c hc => hsel.highest rw hrw c (hsame c hc), fun c hc => hsel.cover c (hsame c hc),
    hsel.tiled⟩

/-- The match of a capability, in the range after the others, where `init` holds the
matches of the names before it. -/
theorem Selection.push {init : List ProtoRW} {proto : Protocol}
    (hinit : init.Pairwise fun a b => a.protocol.name < b.protocol.name)
    (hmatched : ∀ rw ∈ init, rw.protocol ∈ protocols ∧ rw.protocol.cap ∈ done)
    (htiled : Tiled baseProtocolLength init)
    (hlt : ∀ rw ∈ init, rw.protocol.name < cap.name)
    (hhighest : ∀ rw ∈ init, ∀ c, Matched protocols done c → c.name = rw.protocol.name →
      c.version ≤ rw.protocol.version)
    (hcover : ∀ c, Matched protocols done c → c.name ≠ cap.name →
      ∃ rw ∈ init, rw.protocol.name = c.name)
    (hbefore : ∀ c ∈ done, CapLe c cap) (hproto : proto ∈ protocols) (hcap : proto.cap = cap) :
    Selection protocols (done ++ [cap])
      (init ++ [⟨proto, baseProtocolLength + totalLength init⟩]) := by
  have hname : proto.name = cap.name := by rw [← hcap]; rfl
  have hversion : proto.version = cap.version := by rw [← hcap]; rfl
  refine ⟨?sorted, ?matched, ?highest, ?cover, ?tiled⟩
  case sorted =>
    refine List.pairwise_append.mpr ⟨hinit, List.pairwise_singleton _ _, ?_⟩
    intro a ha b hb
    obtain rfl := List.mem_singleton.mp hb
    rw [hname]
    exact hlt a ha
  case matched =>
    intro rw hrw
    rcases List.mem_append.mp hrw with hrw | hrw
    · exact ⟨(hmatched rw hrw).1, List.mem_append_left _ (hmatched rw hrw).2⟩
    · obtain rfl := List.mem_singleton.mp hrw
      exact ⟨hproto, hcap ▸ List.mem_append_right _ (List.mem_singleton_self _)⟩
  case highest =>
    intro rw hrw c hc hcname
    rcases List.mem_append.mp hrw with hrw | hrw
    · -- a name before `cap`'s: `cap` is not of it
      rcases matched_append_singleton.mp hc with hc | ⟨rfl, -⟩
      · exact hhighest rw hrw c hc hcname
      · exact absurd (hcname ▸ hlt rw hrw) (List.lt_irrefl _)
    · -- `cap`'s name: every capability of it before `cap` has a lower version
      obtain rfl := List.mem_singleton.mp hrw
      rcases matched_append_singleton.mp hc with hc | ⟨rfl, -⟩
      · exact hversion ▸ (hbefore c hc.1).version_le (hcname.trans hname)
      · exact hversion ▸ le_rfl
  case cover =>
    intro c hc
    by_cases hcname : c.name = cap.name
    · exact ⟨_, List.mem_append_right _ (List.mem_singleton_self _), hname.trans hcname.symm⟩
    · rcases matched_append_singleton.mp hc with hc | ⟨rfl, -⟩
      · obtain ⟨rw, hrw, hrname⟩ := hcover c hc hcname
        exact ⟨rw, List.mem_append_left _ hrw, hrname⟩
      · exact absurd rfl hcname
  case tiled =>
    exact (tiled_append_singleton _ _ _).mpr ⟨htiled, rfl⟩

/-- Among matches sorted by name, none above `name`, the match of `name` is the last. -/
theorem eq_init_of_name {rs : List ProtoRW} {old : ProtoRW} {name : List UInt8}
    (hsorted : rs.Pairwise fun a b => a.protocol.name < b.protocol.name)
    (hle : ∀ rw ∈ rs, rw.protocol.name ≤ name) (hold : old ∈ rs)
    (hname : old.protocol.name = name) :
    ∃ init, rs = init ++ [old] ∧ ∀ rw ∈ init, rw.protocol.name < name := by
  obtain ⟨l₁, l₂, rfl⟩ := List.append_of_mem hold
  obtain ⟨-, hl₂, hl₁₂⟩ := List.pairwise_append.mp hsorted
  cases l₂ with
  | nil => exact ⟨l₁, rfl, fun rw hrw => hname ▸ hl₁₂ rw hrw old List.mem_cons_self⟩
  | cons y l₂ =>
    -- a match after `old` would be above `name`
    have hy : old.protocol.name < y.protocol.name := List.rel_of_pairwise_cons hl₂ List.mem_cons_self
    have hyle := hle y (List.mem_append_right _ (List.mem_cons_of_mem _ List.mem_cons_self))
    exact absurd (Std.lt_of_lt_of_le hy (hname ▸ hyle)) (List.lt_irrefl _)

/-- `setRW` on a name already in the map, that of the last match. -/
theorem setRW_replace_last {init : List ProtoRW} {old rw : ProtoRW}
    (hinit : ∀ o ∈ init, o.protocol.name ≠ rw.protocol.name)
    (hold : old.protocol.name = rw.protocol.name) : setRW (init ++ [old]) rw = init ++ [rw] := by
  rw [setRW, List.filter_append, List.filter_eq_self.mpr (fun o ho => by simpa using hinit o ho)]
  simp [hold]

/-- **One round of the loop**: after the capabilities `done`, all ordered before `cap`, the
matches are the selection of `done`, the running offset ends their ranges, and no name of
theirs is above `cap`'s; after `cap`, the same holds of `done ++ [cap]`. -/
theorem Selection.step {st : UInt64 × List ProtoRW} (hsel : Selection protocols done st.2)
    (hoff : st.1 = baseProtocolLength + totalLength st.2) (hbefore : ∀ c ∈ done, CapLe c cap)
    (hnames : ∀ rw ∈ st.2, rw.protocol.name ≤ cap.name) :
    Selection protocols (done ++ [cap]) (matchStep protocols st cap).2 ∧
      (matchStep protocols st cap).1 =
        baseProtocolLength + totalLength (matchStep protocols st cap).2 ∧
      ∀ rw ∈ (matchStep protocols st cap).2, rw.protocol.name ≤ cap.name := by
  rcases hfind : findProto protocols cap with _ | proto
  · -- no protocol of that name and version
    simp only [matchStep, hfind]
    exact ⟨hsel.skip (findProto_none hfind), hoff, hnames⟩
  obtain ⟨hproto, hcap⟩ := findProto_some hfind
  have hname : proto.name = cap.name := by rw [← hcap]; rfl
  -- the matches of the names before `cap`'s, after whose ranges the new one starts
  obtain ⟨init, hinit, hrest, hsub, htiled, hstep⟩ : ∃ init,
      (∀ rw ∈ init, rw.protocol.name < cap.name) ∧
      (∀ rw ∈ st.2, rw.protocol.name ≠ cap.name → rw ∈ init) ∧ init.Sublist st.2 ∧
      Tiled baseProtocolLength init ∧
      matchStep protocols st cap = (baseProtocolLength + totalLength init + proto.length,
        init ++ [⟨proto, baseProtocolLength + totalLength init⟩]) := by
    rcases hlook : lookupRW st.2 cap.name with _ | old
    · -- a new name: its range goes after the others
      have hne := lookupRW_none hlook
      refine ⟨st.2, fun rw hrw => Std.lt_of_le_of_ne (hnames rw hrw) (hne rw hrw),
        fun rw hrw _ => hrw, List.Sublist.refl _, hsel.tiled, ?_⟩
      simp only [matchStep, hfind, hlook]
      rw [setRW_of_forall_ne (fun old hold => hname ▸ hne old hold), hoff]
    · -- a higher version of the last name: its range replaces the last one
      obtain ⟨hold, holdname⟩ := lookupRW_some hlook
      obtain ⟨init, hst, hinit⟩ := eq_init_of_name hsel.sorted hnames hold holdname
      have hoff' : st.1 - old.protocol.length = baseProtocolLength + totalLength init := by
        rw [hoff, hst, totalLength_append_singleton, ← UInt64.add_assoc, UInt64.add_sub_cancel]
      refine ⟨init, hinit, fun rw hrw hne => ?_, hst ▸ List.sublist_append_left _ _,
        ((tiled_append_singleton _ _ _).mp (hst ▸ hsel.tiled)).1, ?_⟩
      · rw [hst] at hrw
        rcases List.mem_append.mp hrw with hrw | hrw
        · exact hrw
        · exact absurd (List.mem_singleton.mp hrw ▸ holdname) hne
      · simp only [matchStep, hfind, hlook]
        rw [hoff', hst, setRW_replace_last (fun o ho heq => List.lt_irrefl cap.name (by
          have h := hinit o ho
          rwa [heq, hname] at h))
          (holdname.trans hname.symm)]
  rw [hstep]
  refine ⟨Selection.push (hsel.sorted.sublist hsub) (fun rw hrw => hsel.matched rw (hsub.subset hrw))
    htiled hinit (fun rw hrw => hsel.highest rw (hsub.subset hrw)) ?_ hbefore hproto hcap, ?_, ?_⟩
  · -- a name other than `cap`'s is matched before it
    intro c hc hcname
    obtain ⟨rw, hrw, hrname⟩ := hsel.cover c hc
    exact ⟨rw, hrest rw hrw (hrname ▸ hcname), hrname⟩
  · simp [UInt64.add_assoc]
  · intro rw hrw
    rcases List.mem_append.mp hrw with hrw | hrw
    · exact Std.le_of_lt (hinit rw hrw)
    · obtain rfl := List.mem_singleton.mp hrw
      exact hname ▸ List.le_refl _

end Step


theorem selection_nil (protocols : List Protocol) : Selection protocols [] [] :=
  ⟨.nil, nofun, nofun, fun _ hc => absurd hc.1 List.not_mem_nil, trivial⟩

/-- A selection depends on the capabilities only through which there are. -/
theorem Selection.congr {protocols : List Protocol} {caps caps' : List Cap} {rs : List ProtoRW}
    (hsel : Selection protocols caps rs) (hcaps : ∀ c, c ∈ caps ↔ c ∈ caps') :
    Selection protocols caps' rs := by
  have hm : ∀ c, Matched protocols caps' c → Matched protocols caps c :=
    fun c hc => ⟨(hcaps c).mpr hc.1, hc.2⟩
  exact ⟨hsel.sorted, fun rw hrw => ⟨(hsel.matched rw hrw).1, (hcaps _).mp (hsel.matched rw hrw).2⟩,
    fun rw hrw c hc => hsel.highest rw hrw c (hm c hc), fun c hc => hsel.cover c (hm c hc),
    hsel.tiled⟩

/-- **The loop `outer`**: over capabilities sorted by name and version, from the selection of
those already seen, it ends with the selection of all of them. The induction is on the
capabilities left; `Selection.step` carries the invariant over one of them. -/
theorem matchLoop_spec {protocols : List Protocol} : ∀ (rest done : List Cap)
    (st : UInt64 × List ProtoRW),
    (done ++ rest).Pairwise CapLe → Selection protocols done st.2 →
    st.1 = baseProtocolLength + totalLength st.2 →
    (∀ rw ∈ st.2, ∀ c ∈ rest, rw.protocol.name ≤ c.name) →
    Selection protocols (done ++ rest) (rest.foldl (matchStep protocols) st).2
  | [], done, st, _, hsel, _, _ => by simpa using hsel
  | cap :: rest, done, st, hsorted, hsel, hoff, hnames => by
    obtain ⟨-, hrest, hbetween⟩ := List.pairwise_append.mp hsorted
    obtain ⟨hsel', hoff', hnames'⟩ := hsel.step hoff
      (fun c hc => hbetween c hc cap List.mem_cons_self) (fun rw hrw => hnames rw hrw cap List.mem_cons_self)
    have hcap : ∀ c ∈ rest, CapLe cap c := fun c hc => List.rel_of_pairwise_cons hrest hc
    have ih := matchLoop_spec rest (done ++ [cap]) (matchStep protocols st cap)
      (by simpa using hsorted) hsel' hoff'
      (fun rw hrw c hc => List.le_trans (hnames' rw hrw) (hcap c hc).name_le)
    simpa using ih

/-- **`matchProtocols` computes the selection** of the capabilities announced: for each
name both ends have, the highest version both have, the names in increasing order, and
ranges that follow each other from `baseProtocolLength`. The capabilities may come in any
order and repeat. -/
theorem matchProtocols_selection (protocols : List Protocol) (caps : List Cap) :
    Selection protocols caps (matchProtocols protocols caps) := by
  have h := @matchLoop_spec protocols (sortCaps caps) [] (baseProtocolLength, [])
    (by simpa using sortCaps_sorted caps) (selection_nil protocols) (by simp [totalLength])
    (fun _ hrw => absurd hrw List.not_mem_nil)
  exact (h.congr fun c => by simp [mem_sortCaps])

/-! ### Both ends -/

/-- The matches are exactly the capabilities both ends have that no such capability of the
same name exceeds in version. -/
theorem Selection.mem_caps_iff {protocols : List Protocol} {caps : List Cap} {rs : List ProtoRW}
    (hsel : Selection protocols caps rs) (c : Cap) :
    c ∈ rs.map (·.protocol.cap) ↔ Matched protocols caps c ∧
      ∀ c', Matched protocols caps c' → c'.name = c.name → c'.version ≤ c.version := by
  constructor
  · intro hc
    obtain ⟨rw, hrw, rfl⟩ := List.mem_map.mp hc
    exact ⟨⟨(hsel.matched rw hrw).2, rw.protocol, (hsel.matched rw hrw).1, rfl⟩,
      fun c' hc' hname => hsel.highest rw hrw c' hc' hname⟩
  · rintro ⟨hc, hmax⟩
    obtain ⟨rw, hrw, hname⟩ := hsel.cover c hc
    have hmatched : Matched protocols caps rw.protocol.cap :=
      ⟨(hsel.matched rw hrw).2, rw.protocol, (hsel.matched rw hrw).1, rfl⟩
    have hle : rw.protocol.version ≤ c.version := hmax _ hmatched hname
    have hge : c.version ≤ rw.protocol.version := hsel.highest rw hrw c hc hname.symm
    refine List.mem_map.mpr ⟨rw, hrw, ?_⟩
    show Cap.mk rw.protocol.name rw.protocol.version = c
    rw [hname, Nat.le_antisymm hle hge]

/-- Two selections of the same capabilities hold the same capabilities, in the same order. -/
theorem Selection.caps_eq {A B : List Protocol} {capsA capsB : List Cap} {ra rb : List ProtoRW}
    (hA : Selection A capsA ra) (hB : Selection B capsB rb)
    (hsame : ∀ c, Matched A capsA c ↔ Matched B capsB c) :
    ra.map (·.protocol.cap) = rb.map (·.protocol.cap) := by
  have : Std.Irrefl (fun x y : Cap => x.name < y.name) := ⟨fun x => List.lt_irrefl x.name⟩
  have : Std.Antisymm (fun x y : Cap => x.name < y.name) :=
    ⟨fun _ _ hxy hyx => absurd hyx (List.lt_asymm hxy)⟩
  -- both are sorted by name, and hold the same capabilities
  have hsa : (ra.map (·.protocol.cap)).Pairwise fun x y => x.name < y.name :=
    List.pairwise_map.mpr hA.sorted
  have hsb : (rb.map (·.protocol.cap)).Pairwise fun x y => x.name < y.name :=
    List.pairwise_map.mpr hB.sorted
  refine List.Pairwise.eq_of_mem_iff hsa hsb fun c => ?_
  rw [hA.mem_caps_iff, hB.mem_caps_iff]
  simp only [hsame]

/-- Ranges tiled from the same code, of the same capabilities and lengths, start at the same
codes. The induction is on the two lists of matches. -/
theorem Tiled.offsets_eq : ∀ {off : UInt64} {ra rb : List ProtoRW}, Tiled off ra → Tiled off rb →
    ra.map (·.protocol.cap) = rb.map (·.protocol.cap) →
    (∀ a ∈ ra, ∀ b ∈ rb, a.protocol.cap = b.protocol.cap → a.protocol.length = b.protocol.length) →
    ra.map (fun rw => (rw.protocol.cap, rw.protocol.length, rw.offset)) =
      rb.map (fun rw => (rw.protocol.cap, rw.protocol.length, rw.offset))
  | _, [], [], _, _, _, _ => rfl
  | _, [], _ :: _, _, _, hcaps, _ => by simp at hcaps
  | _, _ :: _, [], _, _, hcaps, _ => by simp at hcaps
  | off, a :: ra, b :: rb, ⟨ha, hta⟩, ⟨hb, htb⟩, hcaps, hlen => by
    simp only [List.map_cons, List.cons.injEq] at hcaps ⊢
    have hab : a.protocol.length = b.protocol.length :=
      hlen a List.mem_cons_self b List.mem_cons_self hcaps.1
    refine ⟨by rw [hcaps.1, hab, ha, hb], ?_⟩
    rw [hab] at hta
    exact Tiled.offsets_eq hta htb hcaps.2
      (fun a' ha' b' hb' => hlen a' (List.mem_cons_of_mem _ ha') b' (List.mem_cons_of_mem _ hb'))

/-- A capability both ends have, seen from either end. -/
theorem matched_comm {A B : List Protocol} (c : Cap) :
    Matched A (B.map Protocol.cap) c ↔ Matched B (A.map Protocol.cap) c := by
  simp only [Matched, List.mem_map]
  exact And.comm

/-- **Both ends agree**: when the length of a protocol is a function of its name and
version, the two ends match the same capabilities, of the same lengths, at the same
offsets. -/
theorem Selection.agree {A B : List Protocol}
    (hlen : ∀ p ∈ A, ∀ q ∈ B, p.cap = q.cap → p.length = q.length) :
    (matchProtocols A (B.map Protocol.cap)).map
        (fun rw => (rw.protocol.cap, rw.protocol.length, rw.offset)) =
      (matchProtocols B (A.map Protocol.cap)).map
        (fun rw => (rw.protocol.cap, rw.protocol.length, rw.offset)) := by
  have hA := matchProtocols_selection A (B.map Protocol.cap)
  have hB := matchProtocols_selection B (A.map Protocol.cap)
  exact Tiled.offsets_eq hA.tiled hB.tiled (hA.caps_eq hB matched_comm)
    (fun a ha b hb hab => hlen _ (hA.matched a ha).1 _ (hB.matched b hb).1 hab)

/-! ### Routing a message -/

/-- The sum of the lengths of the ranges, in exact arithmetic. -/
def totalNat (rs : List ProtoRW) : Nat := (rs.map (·.protocol.length.toNat)).sum

/-- The ranges of `rs` cut the codes `[off, off + totalNat rs)` in order, in exact
arithmetic. -/
def TiledNat : Nat → List ProtoRW → Prop
  | _, [] => True
  | off, rw :: rs => rw.offset.toNat = off ∧ TiledNat (off + rw.protocol.length.toNat) rs

/-- The code `code` is in the range of `rw`. -/
def InRange (rw : ProtoRW) (code : Nat) : Prop :=
  rw.offset.toNat ≤ code ∧ code < rw.offset.toNat + rw.protocol.length.toNat

/-- The `uint64` ranges are the exact ones while their end stays below `2 ^ 64`. -/
theorem Tiled.toTiledNat : ∀ {off : UInt64} {rs : List ProtoRW}, Tiled off rs →
    off.toNat + totalNat rs < 2 ^ 64 → TiledNat off.toNat rs
  | _, [], _, _ => trivial
  | off, rw :: rs, ⟨hrw, hrest⟩, hsum => by
    simp only [totalNat, List.map_cons, List.sum_cons] at hsum
    have hadd : (off + rw.protocol.length).toNat = off.toNat + rw.protocol.length.toNat := by
      rw [UInt64.toNat_add, Nat.mod_eq_of_lt (by omega)]
    refine ⟨by rw [hrw], ?_⟩
    rw [← hadd]
    exact Tiled.toTiledNat hrest (by rw [hadd, totalNat]; omega)

/-- Each range of tiled ranges lies within them, and wholly before the ranges after it. -/
theorem TiledNat.bounds : ∀ {off : Nat} {rs : List ProtoRW}, TiledNat off rs →
    (∀ rw ∈ rs, off ≤ rw.offset.toNat ∧
      rw.offset.toNat + rw.protocol.length.toNat ≤ off + totalNat rs) ∧
    rs.Pairwise fun a b => a.offset.toNat + a.protocol.length.toNat ≤ b.offset.toNat
  | _, [], _ => ⟨nofun, .nil⟩
  | off, rw :: rs, ⟨hrw, hrest⟩ => by
    obtain ⟨hin, hord⟩ := TiledNat.bounds hrest
    simp only [totalNat, List.map_cons, List.sum_cons] at hin ⊢
    refine ⟨fun x hx => ?_, List.pairwise_cons.mpr ⟨fun x hx => ?_, hord⟩⟩
    · rcases List.mem_cons.mp hx with rfl | hx
      · omega
      · have := hin x hx
        omega
    · have := (hin x hx).1
      omega

/-- Ranges in order, each wholly before the next, hold a code in one range at most. -/
theorem eq_of_inRange : ∀ {rs : List ProtoRW},
    rs.Pairwise (fun a b => a.offset.toNat + a.protocol.length.toNat ≤ b.offset.toNat) →
    ∀ {a b : ProtoRW} {code : Nat}, a ∈ rs → b ∈ rs → InRange a code → InRange b code → a = b
  | [], _, _, _, _, ha, _, _, _ => absurd ha List.not_mem_nil
  | x :: rs, hord, a, b, code, ha, hb, hca, hcb => by
    obtain ⟨hx, hrest⟩ := List.pairwise_cons.mp hord
    rcases List.mem_cons.mp ha with rfl | ha' <;> rcases List.mem_cons.mp hb with rfl | hb'
    · rfl
    · exact absurd (hx b hb') (by unfold InRange at hca hcb; omega)
    · exact absurd (hx a ha') (by unfold InRange at hca hcb; omega)
    · exact eq_of_inRange hrest ha' hb' hca hcb

/-- `find?` finds the one element that passes the test. -/
theorem find?_eq_some_of_unique {α : Type} {p : α → Bool} {l : List α} {x : α} (hx : x ∈ l)
    (hpx : p x = true) (huniq : ∀ y ∈ l, p y = true → y = x) : l.find? p = some x := by
  rcases hfind : l.find? p with _ | y
  · exact absurd hpx (by simpa using List.find?_eq_none.mp hfind x hx)
  · rw [huniq y (List.mem_of_find?_eq_some hfind) (List.find?_some hfind)]

/-- The test of `getProto` on a range that ends below `2 ^ 64`. -/
theorem getProto_test_iff {rw : ProtoRW} {code : UInt64}
    (hend : rw.offset.toNat + rw.protocol.length.toNat < 2 ^ 64) :
    (decide (rw.offset ≤ code) && decide (code < rw.offset + rw.protocol.length)) = true ↔
      InRange rw code.toNat := by
  have hadd : (rw.offset + rw.protocol.length).toNat = rw.offset.toNat + rw.protocol.length.toNat := by
    rw [UInt64.toNat_add, Nat.mod_eq_of_lt hend]
  simp only [Bool.and_eq_true, decide_eq_true_eq, InRange, UInt64.le_iff_toNat_le,
    UInt64.lt_iff_toNat_lt, hadd]

section Route

variable {A B : List Protocol}

/-- **A message goes to the protocol of its name**: with lengths a function of name and
version, and the matched ranges ending below `2 ^ 64`, a message of code `c < Length`
written through a match of one end is routed by `getProto` of the other end, whatever the
order it enumerates its matches in, to the match of the same capability, which reads `c`
again. -/
theorem route_writeCode (hlen : ∀ p ∈ A, ∀ q ∈ B, p.cap = q.cap → p.length = q.length)
    (hsum : baseProtocolLength.toNat + totalNat (matchProtocols A (B.map Protocol.cap)) < 2 ^ 64)
    {running : List ProtoRW} (hrunning : running.Perm (matchProtocols B (A.map Protocol.cap)))
    {rw : ProtoRW} (hrw : rw ∈ matchProtocols A (B.map Protocol.cap)) {c : UInt64}
    (hc : c < rw.protocol.length) :
    ∃ code rw', rw.writeCode c = some code ∧ getProto running code = some rw' ∧
      rw'.protocol.cap = rw.protocol.cap ∧ rw'.readCode code = c := by
  have hagree := Selection.agree hlen
  -- the two ends have the same lengths, and so the same total
  have htotal : totalNat (matchProtocols B (A.map Protocol.cap)) =
      totalNat (matchProtocols A (B.map Protocol.cap)) := by
    have := congrArg (List.map fun t => t.2.1.toNat) hagree
    simp only [List.map_map] at this
    simp only [totalNat]
    exact congrArg List.sum (by simpa [Function.comp_def] using this.symm)
  have htiled := ((matchProtocols_selection B (A.map Protocol.cap)).tiled.toTiledNat
    (by rw [htotal]; exact hsum)).bounds
  -- the match of the same capability at the other end, at the same offset
  obtain ⟨rw', hrw', heq⟩ : ∃ rw' ∈ matchProtocols B (A.map Protocol.cap),
      (rw'.protocol.cap, rw'.protocol.length, rw'.offset) =
        (rw.protocol.cap, rw.protocol.length, rw.offset) := by
    have : (rw.protocol.cap, rw.protocol.length, rw.offset) ∈
        (matchProtocols B (A.map Protocol.cap)).map
          (fun rw => (rw.protocol.cap, rw.protocol.length, rw.offset)) :=
      hagree ▸ List.mem_map_of_mem hrw
    exact List.mem_map.mp this
  simp only [Prod.mk.injEq] at heq
  obtain ⟨hcap, hlen', hoff⟩ := heq
  have hend := (htiled.1 rw' hrw').2
  have hcNat : c.toNat < rw.protocol.length.toNat := UInt64.lt_iff_toNat_lt.mp hc
  have hcode : (c + rw.offset).toNat = c.toNat + rw.offset.toNat := by
    rw [UInt64.toNat_add, Nat.mod_eq_of_lt (by rw [hoff, hlen', htotal] at hend; omega)]
  refine ⟨c + rw.offset, rw', by simp [ProtoRW.writeCode, UInt64.not_le.mpr hc], ?_, hcap, ?_⟩
  · -- only the range of `rw'` holds the code
    have hin : InRange rw' (c + rw.offset).toNat := by
      unfold InRange
      rw [hcode, hoff, hlen']
      omega
    refine find?_eq_some_of_unique (hrunning.mem_iff.mpr hrw')
      ((getProto_test_iff (by rw [htotal] at hend; omega)).mpr hin) fun y hy htest => ?_
    have hyB := hrunning.mem_iff.mp hy
    have hyend := (htiled.1 y hyB).2
    exact eq_of_inRange htiled.2 hyB hrw'
      ((getProto_test_iff (by rw [htotal] at hyend; omega)).mp htest) hin
  · simp [ProtoRW.readCode, hoff]

end Route

/-! ### Both ends of a connection -/

/-- **Subprotocol multiplexing on both ends.** For protocol lists `A` and `B` whose lengths
are a function of name and version, and capabilities in any order and with repeats:
`matchProtocols` selects, for every name both have, the highest version both have, with
ranges that follow each other from `baseProtocolLength` in increasing order of names; both
ends give each capability the same offset; and while the ranges end below `2 ^ 64`, they
cut the codes from `baseProtocolLength` on exactly, and a message of code `c < Length`
written through one end reaches the protocol of its name at the other, which reads `c`. -/
theorem protocols_match_both_ends (A B : List Protocol)
    (hlen : ∀ p ∈ A, ∀ q ∈ B, p.cap = q.cap → p.length = q.length) :
    Selection A (B.map Protocol.cap) (matchProtocols A (B.map Protocol.cap)) ∧
    (matchProtocols A (B.map Protocol.cap)).map (fun rw => (rw.protocol.cap, rw.offset)) =
      (matchProtocols B (A.map Protocol.cap)).map (fun rw => (rw.protocol.cap, rw.offset)) ∧
    (baseProtocolLength.toNat + totalNat (matchProtocols A (B.map Protocol.cap)) < 2 ^ 64 →
      TiledNat baseProtocolLength.toNat (matchProtocols A (B.map Protocol.cap)) ∧
      ∀ running : List ProtoRW, running.Perm (matchProtocols B (A.map Protocol.cap)) →
        ∀ rw ∈ matchProtocols A (B.map Protocol.cap), ∀ c < rw.protocol.length,
          ∃ code rw', rw.writeCode c = some code ∧ getProto running code = some rw' ∧
            rw'.protocol.name = rw.protocol.name ∧ rw'.readCode code = c) := by
  have hsel := matchProtocols_selection A (B.map Protocol.cap)
  refine ⟨hsel, ?_, fun hsum => ⟨hsel.tiled.toTiledNat hsum, ?_⟩⟩
  · -- the triples of both ends agree, and so do their capabilities and offsets
    have := congrArg (List.map fun t => (t.1, t.2.2)) (Selection.agree hlen)
    simpa [List.map_map, Function.comp_def] using this
  · intro running hrunning rw hrw c hc
    obtain ⟨code, rw', hwrite, hget, hcap, hread⟩ := route_writeCode hlen hsum hrunning hrw hc
    exact ⟨code, rw', hwrite, hget, congrArg Cap.name hcap, hread⟩

/-- Both ends offering two versions of `eth` and one of `les`, the capabilities announced in
another order. -/
theorem protocols_match_both_ends_eth_les :
    (∀ p ∈ ([⟨[0x65, 0x74, 0x68], 62, 8⟩, ⟨[0x65, 0x74, 0x68], 63, 17⟩, ⟨[0x6C, 0x65, 0x73], 1, 15⟩] :
        List Protocol),
      ∀ q ∈ ([⟨[0x6C, 0x65, 0x73], 1, 15⟩, ⟨[0x65, 0x74, 0x68], 63, 17⟩] : List Protocol),
        p.cap = q.cap → p.length = q.length) ∧
    (matchProtocols [⟨[0x65, 0x74, 0x68], 62, 8⟩, ⟨[0x65, 0x74, 0x68], 63, 17⟩,
        ⟨[0x6C, 0x65, 0x73], 1, 15⟩]
      (List.map Protocol.cap [⟨[0x6C, 0x65, 0x73], 1, 15⟩, ⟨[0x65, 0x74, 0x68], 63, 17⟩])).map
        (fun rw => (rw.protocol.cap, rw.offset)) =
      (matchProtocols [⟨[0x6C, 0x65, 0x73], 1, 15⟩, ⟨[0x65, 0x74, 0x68], 63, 17⟩]
        (List.map Protocol.cap [⟨[0x65, 0x74, 0x68], 62, 8⟩, ⟨[0x65, 0x74, 0x68], 63, 17⟩,
          ⟨[0x6C, 0x65, 0x73], 1, 15⟩])).map
        (fun rw => (rw.protocol.cap, rw.offset)) := by
  have hlen : ∀ p ∈ ([⟨[0x65, 0x74, 0x68], 62, 8⟩, ⟨[0x65, 0x74, 0x68], 63, 17⟩,
      ⟨[0x6C, 0x65, 0x73], 1, 15⟩] : List Protocol),
      ∀ q ∈ ([⟨[0x6C, 0x65, 0x73], 1, 15⟩, ⟨[0x65, 0x74, 0x68], 63, 17⟩] : List Protocol),
        p.cap = q.cap → p.length = q.length := by decide
  exact ⟨hlen, (protocols_match_both_ends _ _ hlen).2.1⟩

/-- Past `2 ^ 64` a range wraps around: a protocol of length `2 ^ 64 - 1`, matched at
offset `16`, sends its code `0` as `16`, which `getProto` of the other end finds in no
range, since `16 + (2 ^ 64 - 1)` wraps to `15`. -/
theorem wrapped_range_unrouted :
    matchProtocols [⟨[0x61], 1, 0xFFFFFFFFFFFFFFFF⟩] [⟨[0x61], 1⟩] =
        [⟨⟨[0x61], 1, 0xFFFFFFFFFFFFFFFF⟩, 16⟩] ∧
      ProtoRW.writeCode ⟨⟨[0x61], 1, 0xFFFFFFFFFFFFFFFF⟩, 16⟩ 0 = some 16 ∧
      getProto [⟨⟨[0x61], 1, 0xFFFFFFFFFFFFFFFF⟩, 16⟩] 16 = none := by
  decide

end P2p
