import Quoin.Channel.Relayed

/-!
# Quoin — shipped channels and their references

A shipped channel stays rooted under one id as long as the far side has an
endpoint of it: every reference counted at the owner is an endpoint, an id that
is crossing, a dropped endpoint not yet released, or a `Release` on its way
(`LinkOk`). The relay lane is ordered, so behind every operation on its way
there is still a reference that keeps the id rooted (`Covered`), and what it
finds there is the channel its endpoint was shipped for.
-/

namespace Quoin.Channel

open Trans

variable {V : Type}

/-! ## References -/

def Owner.shipOf (o : Owner V) (c : ChanId) : Option ChanShip :=
  (o.chans[c]?).bind NativeChannelState.ship

/-- `1` if this is the id counted. -/
def share (id id' : HostedId) : Nat := if id' = id then 1 else 0

theorem share_self (id : HostedId) : share id id = 1 := if_pos rfl

def NativeRelayChannel.shares (id : HostedId) (parts : NativeRelayChannel) : Nat :=
  share id parts.chan

def endpointShares (id : HostedId) (slot : Option NativeRelayChannel) : Nat :=
  slot.elim 0 (NativeRelayChannel.shares id)

namespace ChanFrame

def releases (id : HostedId) : ChanFrame V → Nat
  | .release id' => share id id'
  | _ => 0

/-- The frame asks something of the channel under this id. -/
def Addresses (id : HostedId) : ChanFrame V → Prop
  | .send id' _ _ | .recv id' _ => id' = id
  | _ => False

end ChanFrame

/-- Every operation on the lane has a reference behind it. -/
def Covered (avail : HostedId → Nat) : List (ChanFrame V) → Prop
  | [] => True
  | frame :: rest =>
    (∀ id, frame.Addresses id → 1 ≤ avail id + tally (ChanFrame.releases id) rest) ∧
      Covered avail rest

theorem Covered.concat {avail avail' : HostedId → Nat} {lane tail : List (ChanFrame V)}
    (h : Covered avail lane)
    (hle : ∀ id, avail id ≤ avail' id + tally (ChanFrame.releases id) tail)
    (htail : Covered avail' tail) : Covered avail' (lane ++ tail) := by
  induction lane with
  | nil => exact htail
  | cons frame rest ih =>
    refine ⟨fun id haddr => ?_, ih h.2⟩
    have := h.1 id haddr
    have := hle id
    show 1 ≤ avail' id + tally (ChanFrame.releases id) (rest ++ tail)
    rw [tally_append]
    omega

theorem Covered.le_of_mem {avail : HostedId → Nat} {lane : List (ChanFrame V)}
    (h : Covered avail lane) {frame : ChanFrame V} (hin : frame ∈ lane) {id : HostedId}
    (haddr : frame.Addresses id) : 1 ≤ avail id + tally (ChanFrame.releases id) lane := by
  induction lane with
  | nil => cases hin
  | cons head rest ih =>
    rw [tally_cons]
    rcases List.mem_cons.mp hin with rfl | hin
    · have := h.1 id haddr
      omega
    · have := ih h.2 hin
      omega

/-- References the remote VM can still give back. -/
def avail (endpoints : List (Option NativeRelayChannel)) (reap : List HostedId)
    (id : HostedId) : Nat :=
  tally (endpointShares id) endpoints + tally (share id) reap

/-- All references there are. -/
def shares (endpoints : List (Option NativeRelayChannel)) (reap : List HostedId)
    (out : List (ChanFrame V)) (crossing : List NativeRelayChannel) (id : HostedId) : Nat :=
  avail endpoints reap id + tally (ChanFrame.releases id) out +
    tally (NativeRelayChannel.shares id) crossing

structure LinkOk (o : Owner V) (endpoints : List (Option NativeRelayChannel))
    (reap : List HostedId) (out : List (ChanFrame V)) (crossing : List NativeRelayChannel) :
    Prop where
  ship : ∀ c ship, o.shipOf c = some ship → o.hosted ship.id = some c ∧
    ship.refs = shares endpoints reap out crossing ship.id ∧ 1 ≤ ship.refs
  hosted : ∀ id c, o.hosted id = some c → ∃ ship, o.shipOf c = some ship ∧ ship.id = id
  free : ∀ id, o.hosted id = none → shares endpoints reap out crossing id = 0
  endpoint : ∀ parts, some parts ∈ endpoints → o.hosted parts.chan = some parts.home
  crossing : ∀ parts ∈ crossing, o.hosted parts.chan = some parts.home
  covered : Covered (avail endpoints reap) out
  send : ∀ id corr v, .send id corr v ∈ out → o.hosted id = some v.chan

variable {o o' : Owner V} {endpoints : List (Option NativeRelayChannel)} {reap : List HostedId}
  {out rest : List (ChanFrame V)} {crossing : List NativeRelayChannel} {c : ChanId}
  {id : HostedId} {parts : NativeRelayChannel}

namespace LinkOk

/-- A reference keeps the id rooted. -/
theorem rooted (h : LinkOk o endpoints reap out crossing)
    (hpos : 0 < shares endpoints reap out crossing id) : ∃ c, o.hosted id = some c := by
  cases hhost : o.hosted id with
  | some c => exact ⟨c, rfl⟩
  | none =>
    have := h.free id hhost
    omega

theorem length_lt (h : LinkOk o endpoints reap out crossing) (hhost : o.hosted id = some c) :
    ∃ ch, o.chans[c]? = some ch := by
  obtain ⟨ship, hship, -⟩ := h.hosted id c hhost
  obtain ⟨ch, hch, -⟩ := Option.bind_eq_some_iff.mp hship
  exact ⟨ch, hch⟩

/-- The channel under the id of the next operation. -/
theorem hosted_of_addresses {frame : ChanFrame V}
    (h : LinkOk o endpoints reap (frame :: rest) crossing) (haddr : frame.Addresses id) :
    ∃ c, o.hosted id = some c := by
  refine h.rooted ?_
  have := h.covered.1 id haddr
  have hzero : frame.releases id = 0 := by
    cases frame with
    | release id' => exact haddr.elim
    | _ => rfl
  unfold shares
  rw [tally_cons]
  omega

/-- A frame that is not a `Release` leaves the lane. -/
theorem pop {frame : ChanFrame V} (h : LinkOk o endpoints reap (frame :: rest) crossing)
    (hplain : ∀ id, frame.releases id = 0) : LinkOk o endpoints reap rest crossing := by
  have hshares : ∀ id, shares endpoints reap rest crossing id =
      shares endpoints reap (frame :: rest) crossing id := by
    intro id
    unfold shares
    rw [tally_cons, hplain id, Nat.zero_add]
  refine ⟨?_, h.hosted, fun id hhost => (hshares id).trans (h.free id hhost), h.endpoint,
    h.crossing, h.covered.2, fun id corr v hin => h.send id corr v (List.mem_cons_of_mem _ hin)⟩
  intro c ship hship
  rw [hshares]
  exact h.ship c ship hship

/-- A frame that is not a `Release` enters the lane. -/
theorem emit (h : LinkOk o endpoints reap out crossing) {frame : ChanFrame V}
    (hplain : ∀ id, frame.releases id = 0)
    (hcover : ∀ id, frame.Addresses id → 1 ≤ avail endpoints reap id)
    (hsend : ∀ id corr v, frame = .send id corr v → o.hosted id = some v.chan) :
    LinkOk o endpoints reap (out ++ [frame]) crossing := by
  have hzero : ∀ id, tally (ChanFrame.releases id) [frame] = 0 := by
    intro id
    rw [tally_cons, tally_nil, hplain id]
  have hshares : ∀ id, shares endpoints reap (out ++ [frame]) crossing id =
      shares endpoints reap out crossing id := by
    intro id
    unfold shares
    rw [tally_append, hzero id, Nat.add_zero]
  refine ⟨?_, h.hosted, fun id hhost => (hshares id).trans (h.free id hhost), h.endpoint,
    h.crossing, h.covered.concat (fun id => Nat.le_add_right _ _) ⟨?_, trivial⟩, ?_⟩
  · intro c ship hship
    rw [hshares]
    exact h.ship c ship hship
  · intro id haddr
    exact Nat.le_add_right_of_le (hcover id haddr)
  · intro id corr v hin
    rcases List.mem_append.mp hin with hin | hin
    · exact h.send id corr v hin
    · exact hsend id corr v (List.mem_singleton.mp hin).symm

theorem flush (h : LinkOk o endpoints reap out crossing) :
    LinkOk o endpoints [] (out ++ reap.map .release) crossing := by
  have hreleases : ∀ id, tally (ChanFrame.releases (V := V) id) (reap.map .release) =
      tally (share id) reap := fun id => tally_map _ _
  have hshares : ∀ id, shares endpoints [] (out ++ reap.map .release) crossing id =
      shares endpoints reap out crossing id := by
    intro id
    unfold shares avail
    rw [tally_append, hreleases id, tally_nil]
    omega
  have hplain : ∀ ids : List HostedId, Covered (avail endpoints [])
      (ids.map (ChanFrame.release (V := V))) := by
    intro ids
    induction ids with
    | nil => trivial
    | cons id rest ih => exact ⟨fun _ haddr => haddr.elim, ih⟩
  refine ⟨?_, h.hosted, fun id hhost => (hshares id).trans (h.free id hhost), h.endpoint,
    h.crossing, h.covered.concat (fun id => ?_) (hplain reap), ?_⟩
  · intro c ship hship
    rw [hshares]
    exact h.ship c ship hship
  · rw [hreleases id]
    unfold avail
    rw [tally_nil]
    omega
  · intro id corr v hin
    rcases List.mem_append.mp hin with hin | hin
    · exact h.send id corr v hin
    · obtain ⟨id', -, hne⟩ := List.mem_map.mp hin
      cases hne

/-- An endpoint is dropped. -/
theorem drop (h : LinkOk o endpoints reap out crossing) {e : EndpointId}
    (hget : endpoints[e]? = some (some parts)) :
    LinkOk o (endpoints.set e none) (reap ++ [parts.chan]) out crossing := by
  have havail : ∀ id, avail (endpoints.set e none) (reap ++ [parts.chan]) id =
      avail endpoints reap id := by
    intro id
    have hset := tally_set (f := endpointShares id) (b := none) hget
    have hone : endpointShares id (some parts) = share id parts.chan := rfl
    have hnone : endpointShares id none = 0 := rfl
    unfold avail
    rw [tally_append, tally_cons, tally_nil]
    omega
  have hshares : ∀ id, shares (endpoints.set e none) (reap ++ [parts.chan]) out crossing id =
      shares endpoints reap out crossing id := by
    intro id
    unfold shares
    rw [havail id]
  refine ⟨?_, h.hosted, fun id hhost => (hshares id).trans (h.free id hhost), ?_, h.crossing, ?_,
    h.send⟩
  · intro c ship hship
    rw [hshares]
    exact h.ship c ship hship
  · intro parts' hin
    rcases List.mem_or_eq_of_mem_set hin with hin | hne
    · exact h.endpoint parts' hin
    · cases hne
  · rw [show avail (endpoints.set e none) (reap ++ [parts.chan]) = avail endpoints reap from
      funext havail]
    exact h.covered

/-- A crossing id is wrapped. -/
theorem arrive (h : LinkOk o endpoints reap out crossing) {n : Nat}
    (hget : crossing[n]? = some parts) :
    LinkOk o (endpoints ++ [some parts]) reap out (crossing.eraseIdx n) := by
  have hmem : parts ∈ crossing := List.mem_of_getElem? hget
  have hone : ∀ id, endpointShares id (some parts) = parts.shares id := fun _ => rfl
  have havail : ∀ id, avail (endpoints ++ [some parts]) reap id =
      avail endpoints reap id + parts.shares id := by
    intro id
    unfold avail
    rw [tally_append, tally_cons, tally_nil, hone id]
    omega
  have hshares : ∀ id, shares (endpoints ++ [some parts]) reap out (crossing.eraseIdx n) id =
      shares endpoints reap out crossing id := by
    intro id
    have herase := tally_eraseIdx (f := NativeRelayChannel.shares id) hget
    unfold shares
    rw [havail id]
    omega
  refine ⟨?_, h.hosted, fun id hhost => (hshares id).trans (h.free id hhost), ?_,
    fun p hp => h.crossing p (List.mem_of_mem_eraseIdx hp), ?_, h.send⟩
  · intro c ship hship
    rw [hshares]
    exact h.ship c ship hship
  · intro p hp
    rcases List.mem_append.mp hp with hp | hp
    · exact h.endpoint p hp
    · obtain rfl := Option.some.inj (List.mem_singleton.mp hp)
      exact h.crossing p hmem
  · rw [← List.append_nil out]
    refine h.covered.concat (fun id => ?_) trivial
    rw [havail id]
    omega

/-- Whoever is rooted is rooted once. -/
theorem hosted_inj (h : LinkOk o endpoints reap out crossing) {c' : ChanId} {s s' : ChanShip}
    (hs : o.shipOf c = some s) (hs' : o.shipOf c' = some s') (hid : s.id = s'.id) : c = c' := by
  have hc := (h.ship c s hs).1
  rw [hid, (h.ship c' s' hs').1] at hc
  exact (Option.some.inj hc).symm

/-- A channel is shipped, again or for the first time. -/
theorem channelShip (h : LinkOk o endpoints reap out crossing) {ch : NativeChannelState V}
    (hch : o.chans[c]? = some ch) {free : HostedId} (hfree : o.hosted free = none)
    (hship : o.channelShip c free = (id, o')) :
    LinkOk o' endpoints reap out (crossing ++ [{ chan := id, home := c }]) := by
  have hshares : ∀ id', shares endpoints reap out (crossing ++ [{ chan := id, home := c }]) id' =
      shares endpoints reap out crossing id' + share id' id := by
    intro id'
    have hone : NativeRelayChannel.shares id' { chan := id, home := c } = share id' id := rfl
    unfold shares
    rw [tally_append, tally_cons, tally_nil, hone]
    omega
  have hother : ∀ id', id' ≠ id →
      shares endpoints reap out (crossing ++ [{ chan := id, home := c }]) id' =
        shares endpoints reap out crossing id' := by
    intro id' hne
    rw [hshares, share, if_neg (Ne.symm hne), Nat.add_zero]
  unfold Owner.channelShip at hship
  cases hof : o.shipOf c with
  | some s =>
    rw [show (o.chans[c]?).bind NativeChannelState.ship = some s from hof] at hship
    obtain ⟨rfl, rfl⟩ := Prod.mk.inj hship
    obtain ⟨hhost, hrefs, hpos⟩ := h.ship c s hof
    have hself : ∀ c' s', c' = c → (o.withChan c fun ch => { ch with
        ship := some { s with refs := s.refs + 1 } }).shipOf c' = some s' →
        s' = { s with refs := s.refs + 1 } := by
      rintro c' s' rfl hs'
      rw [Owner.shipOf, getElem?_withChan hch, Option.bind_some] at hs'
      exact (Option.some.inj hs').symm
    have hkept : ∀ c', c' ≠ c → (o.withChan c fun ch => { ch with
        ship := some { s with refs := s.refs + 1 } }).shipOf c' = o.shipOf c' := by
      intro c' hne
      rw [Owner.shipOf, getElem?_withChan_ne hne, Owner.shipOf]
    refine ⟨?_, ?_, ?_, h.endpoint, ?_, h.covered, h.send⟩
    · intro c' s' hs'
      by_cases hc : c' = c
      · obtain rfl := hself c' s' hc hs'
        refine ⟨hc ▸ hhost, ?_, Nat.succ_pos _⟩
        rw [hshares, share_self]
        exact congrArg (· + 1) hrefs
      · rw [hkept c' hc] at hs'
        obtain ⟨hhost', hrefs', hpos'⟩ := h.ship c' s' hs'
        refine ⟨hhost', hrefs'.trans (hother _ ?_).symm, hpos'⟩
        exact fun hid => hc (h.hosted_inj hs' hof hid)
    · intro id' c' hid'
      obtain ⟨s', hs', rfl⟩ := h.hosted id' c' hid'
      by_cases hc : c' = c
      · subst hc
        rw [hof, Option.some.injEq] at hs'
        subst hs'
        refine ⟨{ s with refs := s.refs + 1 }, ?_, rfl⟩
        rw [Owner.shipOf, getElem?_withChan hch]
        rfl
      · exact ⟨s', (hkept c' hc).trans hs', rfl⟩
    · intro id' hid'
      refine (hother id' ?_).trans (h.free id' hid')
      rintro rfl
      rw [show o.hosted s.id = none from hid'] at hhost
      cases hhost
    · intro p hp
      rcases List.mem_append.mp hp with hp | hp
      · exact h.crossing p hp
      · obtain rfl := List.mem_singleton.mp hp
        exact hhost
  | none =>
    rw [show (o.chans[c]?).bind NativeChannelState.ship = none from hof] at hship
    obtain ⟨rfl, rfl⟩ := Prod.mk.inj hship
    have hkept : ∀ c', c' ≠ c → (o.withChan c fun ch => { ch with
        ship := some { id := free, refs := 1 } }).shipOf c' = o.shipOf c' := by
      intro c' hne
      rw [Owner.shipOf, getElem?_withChan_ne hne, Owner.shipOf]
    have hnew : (o.withChan c fun ch => { ch with ship := some { id := free, refs := 1 } }).shipOf
        c = some { id := free, refs := 1 } := by
      rw [Owner.shipOf, getElem?_withChan hch]
      rfl
    -- what was rooted is rooted under another id
    have hhosted : ∀ id' c', o.hosted id' = some c' →
        Function.update o.hosted free (some c) id' = some c' := by
      intro id' c' hid'
      rw [Function.update_apply, if_neg, hid']
      rintro rfl
      rw [hfree] at hid'
      cases hid'
    have hzero := h.free free hfree
    refine ⟨?_, ?_, ?_, fun p hp => hhosted _ _ (h.endpoint p hp), ?_, h.covered,
      fun id' corr v hin => hhosted _ _ (h.send id' corr v hin)⟩
    · intro c' s' hs'
      by_cases hc : c' = c
      · subst hc
        obtain rfl := Option.some.inj (hnew.symm.trans hs')
        refine ⟨Function.update_self .., ?_, Nat.le_refl 1⟩
        rw [hshares, hzero, share_self]
      · obtain ⟨hhost', hrefs', hpos'⟩ := h.ship c' s' ((hkept c' hc).symm.trans hs')
        refine ⟨hhosted _ _ hhost', hrefs'.trans (hother _ ?_).symm, hpos'⟩
        rintro hid
        rw [hid, hfree] at hhost'
        cases hhost'
    · intro id' c' hid'
      dsimp only at hid'
      rw [Function.update_apply] at hid'
      split at hid'
      · rename_i heq
        obtain rfl := Option.some.inj hid'
        exact ⟨_, hnew, heq.symm⟩
      · obtain ⟨s', hs', rfl⟩ := h.hosted id' c' hid'
        refine ⟨s', (hkept c' ?_).trans hs', rfl⟩
        rintro rfl
        rw [hof] at hs'
        cases hs'
    · intro id' hid'
      dsimp only at hid'
      rw [Function.update_apply] at hid'
      split at hid'
      · cases hid'
      · rename_i hne
        exact (hother id' hne).trans (h.free id' hid')
    · intro p hp
      rcases List.mem_append.mp hp with hp | hp
      · exact hhosted _ _ (h.crossing p hp)
      · obtain rfl := List.mem_singleton.mp hp
        exact Function.update_self ..

/-- A reference comes home, and the last one unroots the channel. -/
theorem releaseOne (h : LinkOk o endpoints reap (.release id :: rest) crossing)
    (hhost : o.hosted id = some c) :
    LinkOk (o.releaseOne c id) endpoints reap rest crossing := by
  -- the frame that is gone was one reference to its own id, and none to any other
  have hshares : ∀ id', shares endpoints reap (.release id :: rest) crossing id' =
      shares endpoints reap rest crossing id' + share id' id := by
    intro id'
    have hone : ChanFrame.releases id' (.release id : ChanFrame V) = share id' id := rfl
    unfold shares
    rw [tally_cons, hone]
    omega
  have hother : ∀ id', id' ≠ id → shares endpoints reap rest crossing id' =
      shares endpoints reap (.release id :: rest) crossing id' := by
    intro id' hne
    rw [hshares, share, if_neg (Ne.symm hne), Nat.add_zero]
  obtain ⟨s, hof, rfl⟩ := h.hosted id c hhost
  obtain ⟨ch, hch, -⟩ := Option.bind_eq_some_iff.mp hof
  obtain ⟨-, hrefs, hpos⟩ := h.ship c s hof
  rw [hshares, share_self] at hrefs
  have hsend : ∀ id' corr v, .send id' corr v ∈ rest → o.hosted id' = some v.chan :=
    fun id' corr v hin => h.send id' corr v (List.mem_cons_of_mem _ hin)
  unfold Owner.releaseOne
  rw [show (o.chans[c]?).bind NativeChannelState.ship = some s from hof]
  dsimp only
  split
  · -- the last one: nothing is left that names the id
    rename_i hlast
    have hgone : shares endpoints reap rest crossing s.id = 0 := by omega
    have hhosted : ∀ id' c', id' ≠ s.id → o.hosted id' = some c' →
        Function.update o.hosted s.id none id' = some c' := by
      intro id' c' hne hid'
      rw [Function.update_apply, if_neg hne, hid']
    have havail : avail endpoints reap s.id = 0 := by
      unfold shares at hgone
      omega
    have hkept : ∀ c', c' ≠ c → (o.withChan c fun ch => { ch with ship := none }).shipOf c' =
        o.shipOf c' := by
      intro c' hne
      rw [Owner.shipOf, getElem?_withChan_ne hne, Owner.shipOf]
    have hnone : (o.withChan c fun ch => { ch with ship := none }).shipOf c = none := by
      rw [Owner.shipOf, getElem?_withChan hch]
      rfl
    refine ⟨?_, ?_, ?_, ?_, ?_, h.covered.2, ?_⟩
    · intro c' s' hs'
      by_cases hc : c' = c
      · subst hc
        exact absurd (hnone.symm.trans hs') (by simp)
      · replace hs' := (hkept c' hc).symm.trans hs'
        obtain ⟨hhost', hrefs', hpos'⟩ := h.ship c' s' hs'
        have hne : s'.id ≠ s.id := fun hid => hc (h.hosted_inj hs' hof hid)
        exact ⟨hhosted _ _ hne hhost', hrefs'.trans (hother _ hne).symm, hpos'⟩
    · intro id' c' hid'
      dsimp only at hid'
      rw [Function.update_apply] at hid'
      split at hid'
      · cases hid'
      · rename_i hne
        obtain ⟨s', hs', rfl⟩ := h.hosted id' c' hid'
        refine ⟨s', (hkept c' ?_).trans hs', rfl⟩
        rintro rfl
        rw [hof, Option.some.injEq] at hs'
        exact hne (congrArg ChanShip.id hs').symm
    · intro id' hid'
      dsimp only at hid'
      rw [Function.update_apply] at hid'
      split at hid'
      · rename_i heq
        exact heq ▸ hgone
      · rename_i hne
        exact (hother id' hne).trans (h.free id' hid')
    · intro p hp
      refine hhosted _ _ ?_ (h.endpoint p hp)
      intro hid
      have hle := le_tally (f := endpointShares s.id) hp
      rw [show endpointShares s.id (some p) = share s.id p.chan from rfl, hid, share_self] at hle
      unfold avail at havail
      omega
    · intro p hp
      refine hhosted _ _ ?_ (h.crossing p hp)
      intro hid
      have hle := le_tally (f := NativeRelayChannel.shares s.id) hp
      rw [NativeRelayChannel.shares, hid, share_self] at hle
      unfold shares at hgone
      omega
    · intro id' corr v hin
      refine hhosted _ _ ?_ (hsend id' corr v hin)
      rintro rfl
      have hcov : 1 ≤ _ + tally (ChanFrame.releases s.id) rest := h.covered.2.le_of_mem hin rfl
      unfold shares at hgone
      omega
  · -- others are left: only the count of this channel has changed
    rename_i hmore
    have hkept : ∀ c', c' ≠ c → (o.withChan c fun ch => { ch with
        ship := some { s with refs := s.refs - 1 } }).shipOf c' = o.shipOf c' := by
      intro c' hne
      rw [Owner.shipOf, getElem?_withChan_ne hne, Owner.shipOf]
    have hself : (o.withChan c fun ch => { ch with
        ship := some { s with refs := s.refs - 1 } }).shipOf c =
        some { s with refs := s.refs - 1 } := by
      rw [Owner.shipOf, getElem?_withChan hch]
      rfl
    refine ⟨?_, ?_, ?_, h.endpoint, h.crossing, h.covered.2, hsend⟩
    · intro c' s' hs'
      by_cases hc : c' = c
      · subst hc
        obtain rfl := Option.some.inj (hself.symm.trans hs')
        refine ⟨hhost, ?_, Nat.pos_of_ne_zero hmore⟩
        dsimp only
        omega
      · replace hs' := (hkept c' hc).symm.trans hs'
        obtain ⟨hhost', hrefs', hpos'⟩ := h.ship c' s' hs'
        have hne : s'.id ≠ s.id := fun hid => hc (h.hosted_inj hs' hof hid)
        exact ⟨hhost', hrefs'.trans (hother _ hne).symm, hpos'⟩
    · intro id' c' hid'
      obtain ⟨s', hs', rfl⟩ := h.hosted id' c' hid'
      by_cases hc : c' = c
      · subst hc
        rw [hof, Option.some.injEq] at hs'
        subst hs'
        exact ⟨_, hself, rfl⟩
      · exact ⟨s', (hkept c' hc).trans hs', rfl⟩
    · intro id' hid'
      refine (hother id' ?_).trans (h.free id' hid')
      rintro rfl
      rw [show o.hosted s.id = none from hid'] at hhost
      cases hhost

end LinkOk

end Quoin.Channel
