import Quoin.Channel.State
import Quoin.Trans.Run
import Quoin.Trans.Tally

/-!
# Quoin — references to shipped channels, over many links

What the owner of channels keeps of their endpoints in other VMs: a shipped
channel's reference count and root, the references each worker link holds, and
who is parked. A channel is shipped over any link (`ship_channel`), a link gives
a reference back in a `Release` frame, and a link that dies gives back all it
holds (`channel_link_died`).

The books balance (`Balanced`) exactly as long as channels are shipped over
links that have not died, and a link releases, and receives on, only what it
holds (`Keeps`). The other operations on a channel move values and waiters; here
they are any change of its queues that adds no relayed receiver.

## Results

* `export_books` — the books balance in every state of every run that keeps to them, and a step that
  does not keep to them unbalances them;
* `parkedSender_stays` — a sender that parked over a link stays queued when the link dies.
-/

namespace Quoin.Channel

open Trans

/-- The index of a worker link in `io.chan_links`. -/
abbrev LinkId := Nat

namespace Exports

/-! ## State -/

/-- A parked receiver: a local task, or an operation relayed over a link. -/
inductive Receiver where
  | localTask (task : TaskId) (epoch : Epoch)
  | remoteOp (link : LinkId) (corr : Corr)
deriving DecidableEq

def Receiver.link : Receiver → Option LinkId
  | .localTask _ _ => none
  | .remoteOp link _ => some link

/-- A parked sender with its value. -/
inductive Sender (V : Type) where
  | localTask (task : TaskId) (epoch : Epoch) (value : V)
  | remoteOp (link : LinkId) (corr : Corr) (value : V)
deriving DecidableEq

def Sender.link {V : Type} : Sender V → Option LinkId
  | .localTask _ _ _ => none
  | .remoteOp link _ _ => some link

/-- A channel, as far as links reach it. -/
structure Export (V : Type) where
  recvWaiters : List Receiver := []
  sendWaiters : List (Sender V) := []
  ship : Option ChanShip := none
deriving DecidableEq

structure ChanLink where
  /-- The ids shipped over this link, each as often as it is counted. -/
  shipped : List HostedId := []
  /-- Its relay agent has not seen the lane close. -/
  alive : Bool := true
deriving DecidableEq

structure Exporter (V : Type) where
  chans : ChanId → Export V := fun _ => {}
  /-- The pin table: which channel is rooted under an id. -/
  hosted : HostedId → Option ChanId := fun _ => none
  links : List ChanLink := []

variable {V : Type}

namespace Exporter

def setChan (o : Exporter V) (c : ChanId) (ch : Export V) : Exporter V :=
  { o with chans := Function.update o.chans c ch }

def withLink (o : Exporter V) (l : LinkId) (f : ChanLink → ChanLink) : Exporter V :=
  { o with links := o.links.modify l f }

/-! ## Shipping and releasing -/

/-- `channel_ship`: root the channel under a free id, or count one more endpoint. -/
def channelShip (o : Exporter V) (c : ChanId) (free : HostedId) : HostedId × Exporter V :=
  match (o.chans c).ship with
  | some ship =>
    (ship.id, o.setChan c { o.chans c with ship := some { ship with refs := ship.refs + 1 } })
  | none =>
    (free, { o.setChan c { o.chans c with ship := some { id := free, refs := 1 } } with
      hosted := Function.update o.hosted free (some c) })

/-- `ship_channel`: the reference is counted for its link too. With no such link it raises, after the
channel is shipped. -/
def shipChannel (o : Exporter V) (c : ChanId) (l : LinkId) (free : HostedId) : Exporter V :=
  let (id, o) := o.channelShip c free
  o.withLink l fun link => { link with shipped := id :: link.shipped }

/-- `refs` endpoints less; the last one unroots the channel. -/
def lowerRefs (o : Exporter V) (c : ChanId) (id : HostedId) (refs : Nat) : Exporter V :=
  match (o.chans c).ship with
  | none => o
  | some ship =>
    if ship.refs - refs = 0 then
      { o.setChan c { o.chans c with ship := none } with
        hosted := Function.update o.hosted id none }
    else o.setChan c { o.chans c with ship := some { ship with refs := ship.refs - refs } }

/-- A `Release` frame: the link's own count is repaid if it has one, the channel's in any case. -/
def release (o : Exporter V) (l : LinkId) (id : HostedId) : Exporter V :=
  let o := o.withLink l fun link => { link with shipped := link.shipped.erase id }
  match o.hosted id with
  | none => o
  | some c => o.lowerRefs c id 1

/-- A `Recv` frame that finds no value: its operation is parked. -/
def parkRecv (o : Exporter V) (l : LinkId) (id : HostedId) (corr : Corr) : Exporter V :=
  match o.hosted id with
  | none => o
  | some c =>
    o.setChan c { o.chans c with recvWaiters := (o.chans c).recvWaiters ++ [.remoteOp l corr] }

/-! ## The death of a link -/

/-- The receivers that are not the link's. -/
def purge (l : LinkId) (ws : List Receiver) : List Receiver := ws.filter fun w => w.link ≠ some l

/-- What a dead link held of one id: its receivers are purged, its references given back. -/
def dropRefs (o : Exporter V) (l : LinkId) (id : HostedId) (refs : Nat) : Exporter V :=
  match o.hosted id with
  | none => o
  | some c =>
    (o.setChan c { o.chans c with recvWaiters := purge l (o.chans c).recvWaiters }).lowerRefs c id refs

/-- `channel_link_died`. -/
def channelLinkDied (o : Exporter V) (l : LinkId) : Exporter V :=
  match o.links[l]? with
  | none => o
  | some link =>
    link.shipped.dedup.foldl (fun o id => o.dropRefs l id (link.shipped.count id))
      (o.withLink l fun _ => { shipped := [], alive := false })

/-- The link's agent takes frames from it. -/
def alive (o : Exporter V) (l : LinkId) : Bool := (o.links[l]?).any ChanLink.alive

end Exporter

/-! ## Steps -/

inductive Action (V : Type) where
  /-- `register_chan_link`. -/
  | register
  /-- A channel is shipped over a link; `free` is the slot of the pin table it is rooted in if it has
  none. -/
  | ship (chan : ChanId) (link : LinkId) (free : HostedId)
  | release (link : LinkId) (id : HostedId)
  | recv (link : LinkId) (id : HostedId) (corr : Corr)
  /-- Any other operation leaves these waiters. -/
  | waiters (chan : ChanId) (recvs : List Receiver) (sends : List (Sender V))
  /-- The link's agent sees its lane closed. -/
  | died (link : LinkId)
deriving DecidableEq

namespace Exporter

def step (o : Exporter V) : Action V → Option (Exporter V)
  | .register => some { o with links := o.links ++ [{}] }
  | .ship c l free =>
    if free ≠ 0 ∧ o.hosted free = none then some (o.shipChannel c l free) else none
  | .release l id => if o.alive l then some (o.release l id) else none
  | .recv l id corr => if o.alive l then some (o.parkRecv l id corr) else none
  | .waiters c recvs sends =>
    if ∀ w ∈ recvs, w.link ≠ none → w ∈ (o.chans c).recvWaiters then
      some (o.setChan c { o.chans c with recvWaiters := recvs, sendWaiters := sends })
    else none
  | .died l => if o.alive l then some (o.channelLinkDied l) else none

/-! ## The books -/

end Exporter

/-- The references a link holds under an id; a dead one holds none. -/
def ChanLink.held (id : HostedId) (link : ChanLink) : Nat :=
  if link.alive then link.shipped.count id else 0

namespace Exporter

def heldBy (o : Exporter V) (l : LinkId) (id : HostedId) : Nat := (o.links[l]?).elim 0 (ChanLink.held id)

/-- The references all links hold under an id. -/
def held (o : Exporter V) (id : HostedId) : Nat := tally (ChanLink.held id) o.links

def refs (o : Exporter V) (c : ChanId) : Nat := ((o.chans c).ship.map ChanShip.refs).getD 0

/-- The references a link holds of a channel. -/
def heldOf (o : Exporter V) (l : LinkId) (c : ChanId) : Nat :=
  ((o.chans c).ship.map fun ship => o.heldBy l ship.id).getD 0

end Exporter

/-- A shipped channel is rooted, and counts the references its links hold, of which there are some; an
id under which nothing is rooted is held by no link; a link receives on what it holds only. -/
structure Balanced (o : Exporter V) : Prop where
  ship : ∀ c ship, (o.chans c).ship = some ship →
    o.hosted ship.id = some c ∧ ship.refs = o.held ship.id ∧ 0 < ship.refs
  hosted : ∀ id c, o.hosted id = some c → ∃ ship, (o.chans c).ship = some ship ∧ ship.id = id
  free : ∀ id, o.hosted id = none → o.held id = 0
  parked : ∀ c, ∀ w ∈ (o.chans c).recvWaiters, ∀ l, w.link = some l → 0 < o.heldOf l c

/-- The step ships over a link that lives, or releases or receives on what its link holds. A link that
releases its last reference has no receiver parked any more. -/
def Keeps (o : Exporter V) : Action V → Prop
  | .ship _ l _ => o.alive l = true
  | .release l id => ∀ c ∈ o.hosted id, 0 < o.heldBy l id ∧
      (o.heldBy l id = 1 → ∀ w ∈ (o.chans c).recvWaiters, w.link ≠ some l)
  | .recv l id _ => ∀ c ∈ o.hosted id, 0 < o.heldBy l id
  | _ => True

instance (o : Exporter V) (a : Action V) : Decidable (Keeps o a) := by
  unfold Keeps
  split <;> infer_instance

/-- What the death of a link takes away: its references and its receivers, and nothing else. -/
structure Departs (o o' : Exporter V) (l : LinkId) : Prop where
  links : o'.links = o.links.modify l fun _ => { shipped := [], alive := false }
  refs : ∀ c, o'.refs c + o.heldOf l c = o.refs c
  receivers : ∀ c, (o'.chans c).recvWaiters = Exporter.purge l (o.chans c).recvWaiters
  senders : ∀ c, (o'.chans c).sendWaiters = (o.chans c).sendWaiters

variable {o o' : Exporter V} {c : ChanId} {l : LinkId} {id : HostedId} {link : ChanLink}
  {f : ChanLink → ChanLink}

theorem chans_setChan {c' : ChanId} {ch : Export V} :
    (o.setChan c ch).chans c' = if c' = c then ch else o.chans c' := Function.update_apply _ _ _ _

/-! ## Links -/

theorem held_withLink (hlink : o.links[l]? = some link) :
    (o.withLink l f).held id + link.held id = o.held id + (f link).held id :=
  tally_modify hlink

theorem heldBy_of_some (hlink : o.links[l]? = some link) : o.heldBy l id = link.held id := by
  rw [Exporter.heldBy, hlink, Option.elim_some]

theorem heldBy_withLink (hlink : o.links[l]? = some link) :
    (o.withLink l f).heldBy l id = (f link).held id := by
  refine heldBy_of_some ?_
  rw [Exporter.withLink, List.getElem?_modify, hlink]
  exact congrArg some (if_pos rfl)

theorem heldBy_withLink_ne {l' : LinkId} (hne : l' ≠ l) :
    (o.withLink l f).heldBy l' id = o.heldBy l' id := by
  rw [Exporter.heldBy, Exporter.heldBy, Exporter.withLink, List.getElem?_modify]
  cases o.links[l']? with
  | none => rfl
  | some link => exact congrArg (ChanLink.held id) (if_neg (Ne.symm hne))

theorem heldBy_le_held : o.heldBy l id ≤ o.held id := by
  cases hlink : o.links[l]? with
  | none =>
    rw [Exporter.heldBy, hlink]
    exact Nat.zero_le _
  | some link =>
    rw [heldBy_of_some hlink]
    exact le_tally_of_getElem? hlink

theorem link_of_alive (h : o.alive l = true) :
    ∃ link, o.links[l]? = some link ∧ link.alive = true := by
  rw [Exporter.alive] at h
  cases hlink : o.links[l]? with
  | none =>
    rw [hlink] at h
    cases h
  | some link =>
    rw [hlink] at h
    exact ⟨link, rfl, h⟩

theorem heldBy_of_alive (hlink : o.links[l]? = some link) (halive : link.alive = true) :
    o.heldBy l id = link.shipped.count id := by
  rw [heldBy_of_some hlink]
  exact if_pos halive

/-! ## References given back and still counted -/

/-- The books while the link `l` gives references back: `owed id` of those counted under `id` are not
its own any more. -/
structure Owing (o : Exporter V) (l : LinkId) (owed : HostedId → Nat) : Prop where
  ship : ∀ c ship, (o.chans c).ship = some ship →
    o.hosted ship.id = some c ∧ ship.refs = o.held ship.id + owed ship.id ∧ 0 < ship.refs
  hosted : ∀ id c, o.hosted id = some c → ∃ ship, (o.chans c).ship = some ship ∧ ship.id = id
  free : ∀ id, o.hosted id = none → o.held id + owed id = 0
  parked : ∀ c, ∀ w ∈ (o.chans c).recvWaiters, ∀ l', w.link = some l' →
    ∃ ship, (o.chans c).ship = some ship ∧ (0 < o.heldBy l' ship.id ∨ l' = l ∧ 0 < owed ship.id)

theorem heldOf_of_ship {ship : ChanShip} (hship : (o.chans c).ship = some ship) :
    o.heldOf l c = o.heldBy l ship.id := by
  rw [Exporter.heldOf, hship]
  rfl

theorem refs_of_ship {ship : ChanShip} (hship : (o.chans c).ship = some ship) :
    o.refs c = ship.refs := by
  rw [Exporter.refs, hship]
  rfl

theorem heldOf_pos (h : 0 < o.heldOf l c) :
    ∃ ship, (o.chans c).ship = some ship ∧ 0 < o.heldBy l ship.id := by
  cases hship : (o.chans c).ship with
  | none =>
    rw [Exporter.heldOf, hship] at h
    cases h
  | some ship =>
    rw [heldOf_of_ship hship] at h
    exact ⟨ship, rfl, h⟩

theorem Owing.balanced {owed : HostedId → Nat} (h : Owing o l owed) (hnone : ∀ id, owed id = 0) :
    Balanced o := by
  refine ⟨fun c ship hship => ?_, h.hosted, fun id hid => ?_, fun c w hw l' hl' => ?_⟩
  · have hbooks := h.ship c ship hship
    rwa [hnone, Nat.add_zero] at hbooks
  · have hfree := h.free id hid
    rwa [hnone, Nat.add_zero] at hfree
  · obtain ⟨ship, hship, hpos⟩ := h.parked c w hw l' hl'
    rw [heldOf_of_ship hship]
    refine hpos.resolve_right fun hmine => ?_
    rw [hnone] at hmine
    exact absurd hmine.2 (Nat.lt_irrefl 0)

theorem Balanced.owing (h : Balanced o) (l : LinkId) : Owing o l fun _ => 0 := by
  refine ⟨h.ship, h.hosted, h.free, fun c w hw l' hl' => ?_⟩
  obtain ⟨ship, hship, hpos⟩ := heldOf_pos (h.parked c w hw l' hl')
  exact ⟨ship, hship, .inl hpos⟩

/-- What the link holds changes, and so does what is owed. -/
theorem Owing.withLink {owed owed' : HostedId → Nat} (h : Owing o l owed)
    (hlink : o.links[l]? = some link)
    (hsum : ∀ id, (f link).held id + owed' id = link.held id + owed id) :
    Owing (o.withLink l f) l owed' := by
  have hheld : ∀ id, (o.withLink l f).held id + owed' id = o.held id + owed id := by
    intro id
    have hrest : (o.withLink l f).held id + link.held id = o.held id + (f link).held id :=
      held_withLink hlink
    have := hsum id
    omega
  refine ⟨fun c ship hship => ?_, h.hosted, fun id hid => (hheld id).trans (h.free id hid),
    fun c w hw l' hl' => ?_⟩
  · rw [hheld]
    exact h.ship c ship hship
  · obtain ⟨ship, hship, hpos⟩ := h.parked c w hw l' hl'
    refine ⟨ship, hship, ?_⟩
    by_cases hl : l' = l
    · subst hl
      rw [heldBy_of_some hlink] at hpos
      replace hpos : 0 < link.held ship.id ∨ 0 < owed ship.id := hpos.imp_right And.right
      have hleft : 0 < (f link).held ship.id ∨ 0 < owed' ship.id := by
        have := hsum ship.id
        omega
      rw [heldBy_withLink hlink]
      exact hleft.imp_right fun howed => ⟨rfl, howed⟩
    · rw [heldBy_withLink_ne hl]
      exact .inl (hpos.resolve_right fun hmine => hl hmine.1)

/-- What is owed under an id is given back. -/
theorem Owing.lowerRefs {owed : HostedId → Nat} (h : Owing o l owed) (hhosted : o.hosted id = some c)
    (hmine : ∀ w ∈ (o.chans c).recvWaiters, w.link = some l → 0 < o.heldBy l id) :
    Owing (o.lowerRefs c id (owed id)) l (Function.update owed id 0) := by
  obtain ⟨ship, hship, rfl⟩ := h.hosted id c hhosted
  obtain ⟨-, hrefs, hpos⟩ := h.ship c ship hship
  -- no other channel is rooted under the id
  have hother : ∀ c' ship', c' ≠ c → (o.chans c').ship = some ship' → ship'.id ≠ ship.id := by
    intro c' ship' hne hship' heq
    obtain ⟨hroot, -⟩ := h.ship c' ship' hship'
    rw [heq, hhosted] at hroot
    exact hne (Option.some.inj hroot).symm
  have hsame : ∀ id', o.hosted id' = some c → id' = ship.id := by
    intro id' hid'
    obtain ⟨ship', hship', rfl⟩ := h.hosted id' c hid'
    rw [hship] at hship'
    exact congrArg ChanShip.id (Option.some.inj hship').symm
  unfold Exporter.lowerRefs
  rw [hship]
  simp only
  split_ifs with hlast
  · -- the last reference
    have hzero : o.held ship.id = 0 := by omega
    refine ⟨fun c' ship' hship' => ?_, fun id' c' hid' => ?_, fun id' hid' => ?_,
      fun c' w hw l' hl' => ?_⟩
    · replace hship' : (Function.update o.chans c { o.chans c with ship := none } c').ship =
          some ship' := hship'
      rw [Function.update_apply] at hship'
      split_ifs at hship' with hc
      have hne := hother c' ship' hc hship'
      obtain ⟨hroot, hbooks⟩ := h.ship c' ship' hship'
      refine ⟨(Function.update_of_ne hne _ _).trans hroot, ?_⟩
      rw [Function.update_of_ne hne]
      exact hbooks
    · replace hid' : Function.update o.hosted ship.id none id' = some c' := hid'
      rw [Function.update_apply] at hid'
      split_ifs at hid' with hid
      obtain ⟨ship', hship', rfl⟩ := h.hosted id' c' hid'
      have hc : c' ≠ c := by
        rintro rfl
        exact hid (hsame _ hid')
      exact ⟨ship', (congrArg Export.ship (Function.update_of_ne hc _ _)).trans hship', rfl⟩
    · replace hid' : Function.update o.hosted ship.id none id' = none := hid'
      rw [Function.update_apply] at hid' ⊢
      split_ifs at hid' ⊢ with hid
      · rw [hid]
        exact hzero
      · exact h.free id' hid'
    · replace hw : w ∈ (Function.update o.chans c { o.chans c with ship := none } c').recvWaiters := hw
      by_cases hc : c' = c
      · subst hc
        rw [Function.update_self] at hw
        have hnone : o.heldBy l' ship.id = 0 := Nat.eq_zero_of_le_zero (hzero ▸ heldBy_le_held)
        obtain ⟨ship', hship', hpos'⟩ := h.parked c' w hw l' hl'
        obtain rfl := Option.some.inj (hship.symm.trans hship')
        obtain hpos' | ⟨rfl, -⟩ := hpos'
        · omega
        · have := hmine w hw hl'
          omega
      · rw [Function.update_of_ne hc] at hw
        obtain ⟨ship', hship', hpos'⟩ := h.parked c' w hw l' hl'
        refine ⟨ship', (congrArg Export.ship (Function.update_of_ne hc _ _)).trans hship', ?_⟩
        rw [Function.update_of_ne (hother c' ship' hc hship')]
        exact hpos'
  · have hself : (Function.update o.chans c { o.chans c with
        ship := some { ship with refs := ship.refs - owed ship.id } } c).ship =
        some { ship with refs := ship.refs - owed ship.id } := by
      rw [Function.update_self]
    refine ⟨fun c' ship' hship' => ?_, fun id' c' hid' => ?_, fun id' hid' => ?_,
      fun c' w hw l' hl' => ?_⟩
    · by_cases hc : c' = c
      · subst hc
        obtain rfl := Option.some.inj (hself.symm.trans hship')
        refine ⟨hhosted, ?_, Nat.pos_of_ne_zero hlast⟩
        rw [Function.update_self]
        show ship.refs - owed ship.id = o.held ship.id + 0
        omega
      · replace hship' : (o.chans c').ship = some ship' :=
          (congrArg Export.ship (Function.update_of_ne hc _ _)).symm.trans hship'
        rw [Function.update_of_ne (hother c' ship' hc hship')]
        exact h.ship c' ship' hship'
    · obtain ⟨ship', hship', rfl⟩ := h.hosted id' c' hid'
      by_cases hc : c' = c
      · subst hc
        exact ⟨_, hself, (hsame _ hid').symm⟩
      · exact ⟨ship', (congrArg Export.ship (Function.update_of_ne hc _ _)).trans hship', rfl⟩
    · have hne : id' ≠ ship.id := by
        rintro rfl
        rw [show o.hosted ship.id = none from hid'] at hhosted
        cases hhosted
      rw [Function.update_of_ne hne]
      exact h.free id' hid'
    · replace hw : w ∈ (Function.update o.chans c { o.chans c with
          ship := some { ship with refs := ship.refs - owed ship.id } } c').recvWaiters := hw
      by_cases hc : c' = c
      · subst hc
        rw [Function.update_self] at hw
        refine ⟨_, hself, .inl ?_⟩
        obtain ⟨ship', hship', hpos'⟩ := h.parked c' w hw l' hl'
        obtain rfl := Option.some.inj (hship.symm.trans hship')
        obtain hpos' | ⟨rfl, -⟩ := hpos'
        · exact hpos'
        · exact hmine w hw hl'
      · rw [Function.update_of_ne hc] at hw
        obtain ⟨ship', hship', hpos'⟩ := h.parked c' w hw l' hl'
        refine ⟨ship', (congrArg Export.ship (Function.update_of_ne hc _ _)).trans hship', ?_⟩
        rw [Function.update_of_ne (hother c' ship' hc hship')]
        exact hpos'

/-- The queues of a channel change, and no relayed receiver is added. -/
theorem Owing.waiters {owed : HostedId → Nat} (h : Owing o l owed) (recvs : List Receiver)
    (sends : List (Sender V))
    (hsub : ∀ w ∈ recvs, w.link ≠ none → w ∈ (o.chans c).recvWaiters) :
    Owing (o.setChan c { o.chans c with recvWaiters := recvs, sendWaiters := sends }) l owed := by
  have hships : ∀ c', ((o.setChan c { o.chans c with
      recvWaiters := recvs, sendWaiters := sends }).chans c').ship = (o.chans c').ship := by
    intro c'
    rw [chans_setChan]
    split_ifs with hc
    · rw [hc]
    · rfl
  refine ⟨fun c' ship hship => h.ship c' ship (hships c' ▸ hship), fun id c' hid => ?_, h.free,
    fun c' w hw l' hl' => ?_⟩
  · rw [hships]
    exact h.hosted id c' hid
  · rw [hships]
    refine h.parked c' w ?_ l' hl'
    rw [chans_setChan] at hw
    split_ifs at hw with hc
    · rw [hc]
      exact hsub w hw (by rw [hl']; exact Option.some_ne_none l')
    · exact hw

theorem mem_purge {w : Receiver} {ws : List Receiver} :
    w ∈ Exporter.purge l ws ↔ w ∈ ws ∧ w.link ≠ some l := by
  rw [Exporter.purge, List.mem_filter, decide_eq_true_eq]

theorem Owing.dropRefs {owed : HostedId → Nat} (h : Owing o l owed) (id : HostedId) :
    Owing (o.dropRefs l id (owed id)) l (Function.update owed id 0) := by
  unfold Exporter.dropRefs
  cases hhosted : o.hosted id with
  | none =>
    have hzero : owed id = 0 := by
      have := h.free id hhosted
      omega
    rw [← hzero, Function.update_eq_self]
    exact h
  | some c =>
    have hpurged := h.waiters (c := c) (Exporter.purge l (o.chans c).recvWaiters)
      (o.chans c).sendWaiters fun w hw _ => (mem_purge.mp hw).1
    refine hpurged.lowerRefs hhosted fun w hw hl => ?_
    replace hw : w ∈ (Function.update o.chans c { o.chans c with
      recvWaiters := Exporter.purge l (o.chans c).recvWaiters } c).recvWaiters := hw
    rw [Function.update_self] at hw
    exact absurd hl (mem_purge.mp hw).2

theorem Owing.foldl_dropRefs (refs : HostedId → Nat) {ids : List HostedId} (hnodup : ids.Nodup) :
    ∀ {o : Exporter V} {owed : HostedId → Nat}, Owing o l owed → (∀ id ∈ ids, owed id = refs id) →
      Owing (ids.foldl (fun o id => o.dropRefs l id (refs id)) o) l
        fun id => if id ∈ ids then 0 else owed id := by
  induction ids with
  | nil => exact fun h _ => h
  | cons id ids ih =>
    intro o owed h howed
    obtain ⟨hnotin, hnodup⟩ := List.nodup_cons.mp hnodup
    have hone := h.dropRefs id
    rw [howed id List.mem_cons_self] at hone
    have hrest := ih hnodup hone fun id' hid' => by
      have hne : id' ≠ id := by
        rintro rfl
        exact hnotin hid'
      rw [Function.update_of_ne hne]
      exact howed id' (List.mem_cons_of_mem _ hid')
    have heq : (fun id' => if id' ∈ ids then 0 else Function.update owed id 0 id') =
        fun id' => if id' ∈ id :: ids then 0 else owed id' := by
      funext id'
      by_cases hid : id' = id
      · simp [hid]
      · simp [hid]
    rw [heq] at hrest
    exact hrest

/-! ## The death of a link -/

/-- Receivers of the link may be gone, and roots; nothing else but counts has changed. -/
structure Purged (l : LinkId) (o o' : Exporter V) : Prop where
  links : o'.links = o.links
  hosted : ∀ id c, o'.hosted id = some c → o.hosted id = some c
  receivers : ∀ c, (o'.chans c).recvWaiters = (o.chans c).recvWaiters ∨
    (o'.chans c).recvWaiters = Exporter.purge l (o.chans c).recvWaiters
  senders : ∀ c, (o'.chans c).sendWaiters = (o.chans c).sendWaiters

theorem Purged.refl (o : Exporter V) : Purged l o o :=
  ⟨rfl, fun _ _ h => h, fun _ => .inl rfl, fun _ => rfl⟩

theorem Purged.trans {o'' : Exporter V} (h : Purged l o o') (h' : Purged l o' o'') :
    Purged l o o'' := by
  refine ⟨h'.links.trans h.links, fun id c hid => h.hosted id c (h'.hosted id c hid), fun c => ?_,
    fun c => (h'.senders c).trans (h.senders c)⟩
  rcases h'.receivers c with heq' | heq'
  · rw [heq']
    exact h.receivers c
  · rw [heq']
    right
    rcases h.receivers c with heq | heq
    · rw [heq]
    · rw [heq, Exporter.purge, Exporter.purge, List.filter_filter]
      simp

theorem lowerRefs_queues (refs : Nat) (c' : ChanId) :
    ((o.lowerRefs c id refs).chans c').recvWaiters = (o.chans c').recvWaiters ∧
      ((o.lowerRefs c id refs).chans c').sendWaiters = (o.chans c').sendWaiters := by
  have hone : ∀ ship : Option ChanShip,
      (Function.update o.chans c { o.chans c with ship } c').recvWaiters = (o.chans c').recvWaiters ∧
        (Function.update o.chans c { o.chans c with ship } c').sendWaiters =
          (o.chans c').sendWaiters := by
    intro ship
    rw [Function.update_apply]
    split_ifs with hc
    · rw [hc]
      exact ⟨rfl, rfl⟩
    · exact ⟨rfl, rfl⟩
  unfold Exporter.lowerRefs
  split
  · exact ⟨rfl, rfl⟩
  · split_ifs
    · exact hone none
    · exact hone _

theorem lowerRefs_links (refs : Nat) : (o.lowerRefs c id refs).links = o.links := by
  unfold Exporter.lowerRefs
  split
  · rfl
  · split_ifs <;> rfl

theorem purged_lowerRefs (refs : Nat) : Purged l o (o.lowerRefs c id refs) := by
  refine ⟨lowerRefs_links refs, fun id' c' hid' => ?_, fun c' => .inl (lowerRefs_queues refs c').1,
    fun c' => (lowerRefs_queues refs c').2⟩
  unfold Exporter.lowerRefs at hid'
  split at hid'
  · exact hid'
  · split_ifs at hid'
    · replace hid' : Function.update o.hosted id none id' = some c' := hid'
      rw [Function.update_apply] at hid'
      split_ifs at hid'
      exact hid'
    · exact hid'

theorem purged_purge : Purged l o
    (o.setChan c { o.chans c with recvWaiters := Exporter.purge l (o.chans c).recvWaiters }) := by
  refine ⟨rfl, fun _ _ h => h, fun c' => ?_, fun c' => ?_⟩
  · rw [chans_setChan]
    split_ifs with hc
    · rw [hc]
      exact .inr rfl
    · exact .inl rfl
  · rw [chans_setChan]
    split_ifs with hc
    · rw [hc]
    · rfl

theorem purged_dropRefs (id : HostedId) (refs : Nat) : Purged l o (o.dropRefs l id refs) := by
  unfold Exporter.dropRefs
  split
  · exact .refl o
  · exact purged_purge.trans (purged_lowerRefs refs)

theorem purged_foldl_dropRefs (refs : HostedId → Nat) (ids : List HostedId) :
    ∀ {o : Exporter V}, Purged l o (ids.foldl (fun o id => o.dropRefs l id (refs id)) o) := by
  induction ids with
  | nil => exact .refl _
  | cons id ids ih => exact (purged_dropRefs id (refs id)).trans ih

theorem heldBy_died (hlink : o.links[l]? = some link) :
    (o.withLink l fun _ => { shipped := [], alive := false }).heldBy l id = 0 := by
  rw [heldBy_withLink hlink]
  rfl

/-- The dead link's references are owed. -/
theorem Balanced.owing_died (h : Balanced o) (hlink : o.links[l]? = some link)
    (halive : link.alive = true) :
    Owing (o.withLink l fun _ => { shipped := [], alive := false }) l fun id =>
      link.shipped.count id := by
  refine (h.owing l).withLink hlink fun id => ?_
  have hmine : link.held id = link.shipped.count id := if_pos halive
  rw [hmine]
  exact Nat.zero_add _

theorem Balanced.died (h : Balanced o) (halive : o.alive l = true) : Balanced (o.channelLinkDied l) := by
  obtain ⟨link, hlink, hagent⟩ := link_of_alive halive
  unfold Exporter.channelLinkDied
  rw [hlink]
  have howing := (h.owing_died hlink hagent).foldl_dropRefs (fun id => link.shipped.count id)
    (List.nodup_dedup link.shipped) fun _ _ => rfl
  refine howing.balanced fun id => ?_
  split_ifs with hin
  · rfl
  · exact List.count_eq_zero.mpr fun hmem => hin (List.mem_dedup.mpr hmem)

/-- **The death of a link.** -/
theorem Balanced.departs (h : Balanced o) (halive : o.alive l = true) :
    Departs o (o.channelLinkDied l) l := by
  have hafter := h.died halive
  obtain ⟨link, hlink, hagent⟩ := link_of_alive halive
  have hpurged : Purged l (o.withLink l fun _ => { shipped := [], alive := false })
      (o.channelLinkDied l) := by
    unfold Exporter.channelLinkDied
    rw [hlink]
    exact purged_foldl_dropRefs _ _
  generalize o.channelLinkDied l = o' at hafter hpurged
  have hheldBy : ∀ id, o'.heldBy l id = 0 := by
    intro id
    rw [Exporter.heldBy, hpurged.links]
    exact heldBy_died hlink
  have hheld : ∀ id, o'.held id + o.heldBy l id = o.held id := by
    intro id
    rw [Exporter.held, hpurged.links, heldBy_of_some hlink]
    exact held_withLink hlink
  refine ⟨hpurged.links, fun c => ?_, fun c => ?_, hpurged.senders⟩
  · cases hship : (o.chans c).ship with
    | none =>
      have hnone : (o'.chans c).ship = none := by
        cases hship' : (o'.chans c).ship with
        | none => rfl
        | some ship' =>
          obtain ⟨ship, hsome, -⟩ := h.hosted _ c (hpurged.hosted _ c (hafter.ship c ship' hship').1)
          rw [hship] at hsome
          cases hsome
      rw [Exporter.refs, Exporter.heldOf, Exporter.refs, hship, hnone]
      rfl
    | some ship =>
      obtain ⟨hroot, hrefs, -⟩ := h.ship c ship hship
      rw [refs_of_ship hship, heldOf_of_ship hship, hrefs, ← hheld]
      congr 1
      cases hship' : (o'.chans c).ship with
      | none =>
        rw [Exporter.refs, hship']
        cases hroot' : o'.hosted ship.id with
        | none => exact (hafter.free _ hroot').symm
        | some c' =>
          -- rooted still, so shipped still
          obtain rfl := Option.some.inj (hroot.symm.trans (hpurged.hosted _ c' hroot'))
          obtain ⟨ship', hsome, -⟩ := hafter.hosted _ c hroot'
          rw [hship'] at hsome
          cases hsome
      | some ship' =>
        obtain ⟨hroot', hrefs', -⟩ := hafter.ship c ship' hship'
        obtain ⟨ship'', hsome, hid⟩ := h.hosted _ c (hpurged.hosted _ c hroot')
        obtain rfl := Option.some.inj (hship.symm.trans hsome)
        rw [refs_of_ship hship', hrefs', hid]
  · have hgone : ∀ w ∈ (o'.chans c).recvWaiters, w.link ≠ some l := by
      intro w hw hl
      obtain ⟨ship, -, hpos⟩ := heldOf_pos (hafter.parked c w hw l hl)
      rw [hheldBy] at hpos
      exact absurd hpos (Nat.lt_irrefl 0)
    rcases hpurged.receivers c with heq | heq
    · rw [heq] at hgone ⊢
      refine (List.filter_eq_self.mpr fun w hw => ?_).symm
      exact decide_eq_true (hgone w hw)
    · exact heq

/-! ## Shipping, releasing, receiving -/

/-- A change of its queues, and no relayed receiver is added. -/
theorem Balanced.waiters (h : Balanced o) (recvs : List Receiver) (sends : List (Sender V))
    (hsub : ∀ w ∈ recvs, w.link ≠ none → w ∈ (o.chans c).recvWaiters) :
    Balanced (o.setChan c { o.chans c with recvWaiters := recvs, sendWaiters := sends }) :=
  ((h.owing 0).waiters recvs sends hsub).balanced fun _ => rfl

theorem Balanced.register (h : Balanced o) :
    Balanced { o with links := o.links ++ [({} : ChanLink)] } := by
  have hheld : ∀ id, tally (ChanLink.held id) (o.links ++ [({} : ChanLink)]) = o.held id := by
    intro id
    rw [tally_append, tally_cons, tally_nil]
    rfl
  refine ⟨fun c ship hship => ?_, h.hosted, fun id hid => (hheld id).trans (h.free id hid),
    fun c w hw l hl => ?_⟩
  · show _ ∧ ship.refs = tally (ChanLink.held ship.id) (o.links ++ [({} : ChanLink)]) ∧ _
    rw [hheld]
    exact h.ship c ship hship
  · obtain ⟨ship, hship, hpos⟩ := heldOf_pos (h.parked c w hw l hl)
    have hof : ({ o with links := o.links ++ [({} : ChanLink)] } : Exporter V).heldOf l c = _ :=
      heldOf_of_ship hship
    rw [hof]
    cases hlink : o.links[l]? with
    | none =>
      rw [Exporter.heldBy, hlink] at hpos
      cases hpos
    | some link =>
      have hold : (o.links ++ [({} : ChanLink)])[l]? = some link := by
        rw [List.getElem?_append_left (List.getElem?_eq_some_iff.mp hlink).1, hlink]
      rw [heldBy_of_some hold, ← heldBy_of_some hlink]
      exact hpos

/-- A channel is rooted under a free id, for a link that does not hold its reference yet. -/
theorem Balanced.root {free : HostedId} (h : Balanced o) (hfree : o.hosted free = none)
    (hship : (o.chans c).ship = none) (hlinks : o'.links = o.links)
    (hroots : ∀ id, o'.hosted id = if id = free then some c else o.hosted id)
    (hships : ∀ c', (o'.chans c').ship =
      if c' = c then some { id := free, refs := 1 } else (o.chans c').ship)
    (hqueues : ∀ c', (o'.chans c').recvWaiters = (o.chans c').recvWaiters) :
    Owing o' l (Function.update (fun _ => 0) free 1) := by
  have hheld : ∀ id, o'.held id = o.held id := fun id => by rw [Exporter.held, hlinks, Exporter.held]
  have hheldBy : ∀ l id, o'.heldBy l id = o.heldBy l id := fun l id => by
    rw [Exporter.heldBy, hlinks, Exporter.heldBy]
  refine ⟨fun c' ship' hship' => ?_, fun id c' hid => ?_, fun id hid => ?_, fun c' w hw l' hl' => ?_⟩
  · -- the shipped channels: the new one, of which one reference is due, and those before it
    rw [hships] at hship'
    rw [hroots, hheld]
    split_ifs at hship' with hc
    · obtain rfl := Option.some.inj hship'
      refine ⟨by rw [if_pos rfl, hc], ?_, Nat.one_pos⟩
      rw [Function.update_self, h.free free hfree]
    · obtain ⟨hroot, hbooks⟩ := h.ship c' ship' hship'
      have hne : ship'.id ≠ free := by
        intro heq
        rw [heq, hfree] at hroot
        cases hroot
      rw [if_neg hne, Function.update_of_ne hne]
      exact ⟨hroot, hbooks⟩
  · -- the roots: the new id leads to the new channel
    rw [hroots] at hid
    rw [hships]
    split_ifs at hid with hfreeId
    · obtain rfl := Option.some.inj hid
      rw [if_pos rfl]
      exact ⟨_, rfl, hfreeId.symm⟩
    · obtain ⟨ship', hship', hid'⟩ := h.hosted id c' hid
      have hc : c' ≠ c := by
        rintro rfl
        rw [hship] at hship'
        cases hship'
      rw [if_neg hc]
      exact ⟨ship', hship', hid'⟩
  · -- what is not hosted is not held, and `free` is hosted now
    rw [hroots] at hid
    split_ifs at hid with hfreeId
    rw [hheld, Function.update_of_ne hfreeId]
    exact h.free id hid
  · -- who is parked there is parked at a channel that was shipped before
    rw [hqueues] at hw
    obtain ⟨ship', hship', hpos⟩ := heldOf_pos (h.parked c' w hw l' hl')
    have hc : c' ≠ c := by
      rintro rfl
      rw [hship] at hship'
      cases hship'
    rw [hships, if_neg hc]
    exact ⟨ship', hship', .inl (by rw [hheldBy]; exact hpos)⟩

/-- One is counted that its link does not hold yet. -/
theorem Balanced.channelShip {free : HostedId} (h : Balanced o) (hfree : o.hosted free = none) :
    Owing (o.channelShip c free).2 l (Function.update (fun _ => 0) (o.channelShip c free).1 1) := by
  unfold Exporter.channelShip
  cases hship : (o.chans c).ship with
  | some ship =>
    -- shipped before: its count goes up by the reference that is on its way
    obtain ⟨hroot, hrefs, hpos⟩ := h.ship c ship hship
    have hother : ∀ c' ship', c' ≠ c → (o.chans c').ship = some ship' → ship'.id ≠ ship.id := by
      intro c' ship' hne hship' heq
      obtain ⟨hroot', -⟩ := h.ship c' ship' hship'
      rw [heq, hroot] at hroot'
      exact hne (Option.some.inj hroot').symm
    simp only
    refine ⟨fun c' ship' hship' => ?_, fun id c' hid => ?_, fun id hid => ?_, fun c' w hw l' hl' => ?_⟩
    · rw [chans_setChan] at hship'
      split_ifs at hship' with hc
      · subst hc
        obtain rfl := Option.some.inj hship'
        refine ⟨hroot, ?_, Nat.succ_pos _⟩
        rw [Function.update_self]
        exact congrArg (· + 1) hrefs
      · rw [Function.update_of_ne (hother c' ship' hc hship')]
        exact h.ship c' ship' hship'
    · obtain ⟨ship', hship', hid'⟩ := h.hosted id c' hid
      rw [chans_setChan]
      split_ifs with hc
      · subst hc
        obtain rfl := Option.some.inj (hship.symm.trans hship')
        exact ⟨_, rfl, hid'⟩
      · exact ⟨ship', hship', hid'⟩
    · have hne : id ≠ ship.id := by
        rintro rfl
        rw [show o.hosted ship.id = none from hid] at hroot
        cases hroot
      rw [Function.update_of_ne hne]
      exact h.free id hid
    · rw [chans_setChan] at hw ⊢
      split_ifs at hw ⊢ with hc
      · subst hc
        obtain ⟨ship', hship', hheld⟩ := heldOf_pos (h.parked c' w hw l' hl')
        obtain rfl := Option.some.inj (hship.symm.trans hship')
        exact ⟨_, rfl, .inl hheld⟩
      · obtain ⟨ship', hship', hheld⟩ := heldOf_pos (h.parked c' w hw l' hl')
        exact ⟨ship', hship', .inl hheld⟩
  | none =>
    -- shipped for the first time, under an id that is free
    refine h.root hfree hship rfl (fun id => Function.update_apply _ _ _ _) (fun c' => ?_) fun c' => ?_
    · show ((o.setChan c { o.chans c with ship := some { id := free, refs := 1 } }).chans c').ship = _
      rw [chans_setChan]
      split_ifs <;> rfl
    · show ((o.setChan c { o.chans c with
        ship := some { id := free, refs := 1 } }).chans c').recvWaiters = _
      rw [chans_setChan]
      split_ifs with hc
      · rw [hc]
      · rfl

theorem hosted_channelShip {free : HostedId} (h : Balanced o) :
    (o.channelShip c free).2.hosted (o.channelShip c free).1 = some c := by
  unfold Exporter.channelShip
  split
  · next ship hship => exact (h.ship c ship hship).1
  · exact Function.update_self _ _ _

theorem links_channelShip {free : HostedId} : (o.channelShip c free).2.links = o.links := by
  unfold Exporter.channelShip
  split <;> rfl

theorem Balanced.shipChannel_iff {free : HostedId} (h : Balanced o) (hfree : o.hosted free = none) :
    Balanced (o.shipChannel c l free) ↔ o.alive l = true := by
  have howing : Owing _ l _ := h.channelShip (c := c) hfree
  have hroot := @hosted_channelShip _ o c free h
  have hlinks := @links_channelShip _ o c free
  unfold Exporter.shipChannel
  generalize o.channelShip c free = shipped at howing hroot hlinks
  obtain ⟨id, d⟩ := shipped
  simp only at howing hroot hlinks ⊢
  constructor
  · intro hafter
    by_contra halive
    -- a dead link, or none, holds nothing
    have hsame : (d.withLink l fun link => { link with shipped := id :: link.shipped }).held id =
        d.held id := by
      cases hlink : d.links[l]? with
      | none =>
        rw [Exporter.held, Exporter.withLink, List.modify_eq_self (List.getElem?_eq_none_iff.mp hlink)]
        rfl
      | some link =>
        have hdead : link.alive = false := by
          rw [Exporter.alive, ← hlinks, hlink] at halive
          exact Bool.eq_false_iff.mpr halive
        have hsum := @held_withLink _ d l id link
          (fun link => { link with shipped := id :: link.shipped }) hlink
        rw [ChanLink.held, ChanLink.held, hdead] at hsum
        exact hsum
    obtain ⟨ship, hship, rfl⟩ := howing.hosted id c hroot
    obtain ⟨-, hrefs, -⟩ := howing.ship c ship hship
    obtain ⟨-, hrefs', -⟩ := hafter.ship c ship hship
    rw [Function.update_self] at hrefs
    rw [hsame] at hrefs'
    omega
  · intro halive
    obtain ⟨link, hlink, hagent⟩ := link_of_alive halive
    rw [← hlinks] at hlink
    have hpaid : Owing (d.withLink l fun link => { link with shipped := id :: link.shipped }) l
        fun _ => 0 := by
      refine howing.withLink hlink fun id' => ?_
      rw [ChanLink.held, ChanLink.held, if_pos hagent, if_pos hagent]
      by_cases hid : id' = id
      · subst hid
        rw [Function.update_self, List.count_cons_self]
      · rw [Function.update_of_ne hid]
        exact congrArg (· + 0) (List.count_cons_of_ne (Ne.symm hid))
    exact hpaid.balanced fun _ => rfl

theorem Balanced.release_iff (h : Balanced o) (halive : o.alive l = true) :
    Balanced (o.release l id) ↔ ∀ c ∈ o.hosted id, 0 < o.heldBy l id ∧
      (o.heldBy l id = 1 → ∀ w ∈ (o.chans c).recvWaiters, w.link ≠ some l) := by
  obtain ⟨link, hlink, hagent⟩ := link_of_alive halive
  have hcount : o.heldBy l id = link.shipped.count id := heldBy_of_alive hlink hagent
  -- the link's own count
  have hrepaid : Owing (o.withLink l fun link => { link with shipped := link.shipped.erase id }) l
      (Function.update (fun _ => 0) id (o.heldBy l id - (o.heldBy l id - 1))) := by
    refine (h.owing l).withLink hlink fun id' => ?_
    rw [ChanLink.held, ChanLink.held, if_pos hagent, if_pos hagent, hcount]
    by_cases hid : id' = id
    · subst hid
      rw [Function.update_self, List.count_erase_self]
      omega
    · rw [Function.update_of_ne hid]
      exact congrArg (· + 0) (List.count_erase_of_ne hid)
  have hafterBy : (o.withLink l fun link => { link with shipped := link.shipped.erase id }).heldBy l id =
      o.heldBy l id - 1 := by
    rw [heldBy_withLink hlink, hcount, ChanLink.held, if_pos hagent, List.count_erase_self]
  unfold Exporter.release
  generalize hd : (o.withLink l fun link => { link with shipped := link.shipped.erase id }) = d
    at hrepaid hafterBy
  have hhosted : d.hosted = o.hosted := hd ▸ rfl
  have hchans : d.chans = o.chans := hd ▸ rfl
  simp only
  rw [hhosted]
  cases hroot : o.hosted id with
  | none =>
    refine iff_of_true (hrepaid.balanced fun id' => ?_) (fun c hc => by cases hc)
    have hzero : o.heldBy l id = 0 := Nat.eq_zero_of_le_zero (h.free id hroot ▸ heldBy_le_held)
    rw [hzero, Function.update_apply]
    split_ifs <;> rfl
  | some c =>
    obtain ⟨ship, hship, rfl⟩ := h.hosted id c hroot
    obtain ⟨-, hrefs, hpos⟩ := h.ship c ship hship
    simp only [Option.mem_def, Option.some.injEq, forall_eq']
    constructor
    · intro hafter
      have hlinks : (d.lowerRefs c ship.id 1).links = d.links := lowerRefs_links 1
      constructor
      · by_contra hnone
        have hzero : o.heldBy l ship.id = 0 := by omega
        obtain ⟨-, hkept, -⟩ := hrepaid.ship c ship (hchans ▸ hship)
        rw [Function.update_self, hzero] at hkept
        have hheld : (d.lowerRefs c ship.id 1).held ship.id = ship.refs := by
          rw [Exporter.held, hlinks]
          exact hkept.symm
        by_cases hlast : ship.refs - 1 = 0
        · have hunrooted : (d.lowerRefs c ship.id 1).hosted ship.id = none := by
            unfold Exporter.lowerRefs
            rw [hchans, hship]
            simp only [if_pos hlast, Function.update_self]
          have := hafter.free ship.id hunrooted
          omega
        · have hlowered : ((d.lowerRefs c ship.id 1).chans c).ship =
              some { ship with refs := ship.refs - 1 } := by
            unfold Exporter.lowerRefs
            rw [hchans, hship]
            simp only [if_neg hlast, chans_setChan, if_true]
          obtain ⟨-, hrefs', -⟩ := hafter.ship c _ hlowered
          replace hrefs' : ship.refs - 1 = (d.lowerRefs c ship.id 1).held ship.id := hrefs'
          omega
      · intro hone w hw hl
        have hparked := hafter.parked c w (by
          rw [(lowerRefs_queues 1 c).1, hchans]
          exact hw) l hl
        obtain ⟨ship', hship', hpos'⟩ := heldOf_pos hparked
        obtain ⟨hroot', -⟩ := hafter.ship c ship' hship'
        have hold : o.hosted ship'.id = some c := by
          rw [← hhosted]
          exact (@purged_lowerRefs _ d c l ship.id 1).hosted _ c hroot'
        obtain ⟨ship'', hship'', hid⟩ := h.hosted _ c hold
        obtain rfl := Option.some.inj (hship.symm.trans hship'')
        rw [Exporter.heldBy, hlinks, ← hid, ← Exporter.heldBy, hafterBy, hone] at hpos'
        exact absurd hpos' (Nat.lt_irrefl 0)
    · rintro ⟨hheld, hlast⟩
      have hone : o.heldBy l ship.id - (o.heldBy l ship.id - 1) = 1 := by omega
      rw [hone] at hrepaid
      have hlowered := hrepaid.lowerRefs (c := c) (hhosted ▸ hroot) fun w hw hl => by
        rw [hafterBy]
        rw [hchans] at hw
        have hmore : o.heldBy l ship.id ≠ 1 := fun heq => hlast heq w hw hl
        omega
      rw [Function.update_self] at hlowered
      refine hlowered.balanced fun id' => ?_
      rw [Function.update_idem, Function.update_apply]
      split_ifs <;> rfl

theorem Balanced.parkRecv_iff {corr : Corr} (h : Balanced o) :
    Balanced (o.parkRecv l id corr) ↔ ∀ c ∈ o.hosted id, 0 < o.heldBy l id := by
  unfold Exporter.parkRecv
  cases hroot : o.hosted id with
  | none => exact iff_of_true h fun c hc => by cases hc
  | some c =>
    obtain ⟨ship, hship, rfl⟩ := h.hosted id c hroot
    -- the new waiter changes no ship, and so no link's references
    have hships : ∀ c', ((o.setChan c { o.chans c with
        recvWaiters := (o.chans c).recvWaiters ++ [.remoteOp l corr] }).chans c').ship =
        (o.chans c').ship := by
      intro c'
      rw [chans_setChan]
      split_ifs with hc
      · rw [hc]
      · rfl
    have hof : ∀ l' c', (o.setChan c { o.chans c with
        recvWaiters := (o.chans c).recvWaiters ++ [.remoteOp l corr] }).heldOf l' c' =
        o.heldOf l' c' := by
      intro l' c'
      rw [Exporter.heldOf, hships]
      rfl
    simp only [Option.mem_def, Option.some.injEq, forall_eq']
    constructor
    · -- the waiter itself asks for the reference
      intro hafter
      have hpos := hafter.parked c (.remoteOp l corr) (by
        rw [chans_setChan, if_pos rfl]
        exact List.mem_append_right _ List.mem_cons_self) l rfl
      rw [hof, heldOf_of_ship hship] at hpos
      exact hpos
    · intro hheld
      refine ⟨fun c' ship' hship' => h.ship c' ship' (hships c' ▸ hship'), fun id' c' hid' => ?_,
        h.free, fun c' w hw l' hl' => ?_⟩
      · rw [hships]
        exact h.hosted id' c' hid'
      · rw [hof]
        rw [chans_setChan] at hw
        split_ifs at hw with hc
        · subst hc
          rcases List.mem_append.mp hw with hw | hw
          · exact h.parked c' w hw l' hl'
          · -- the new waiter is the last in the queue
            obtain rfl := List.mem_singleton.mp hw
            obtain rfl := Option.some.inj hl'
            rw [heldOf_of_ship hship]
            exact hheld
        · exact h.parked c' w hw l' hl'

/-! ## Runs -/

/-- **Step lemma.** From balanced books a step leaves balanced books if and only if it keeps to what
its link holds. -/
theorem Balanced.step_iff {a : Action V} (h : Balanced o) (hstep : o.step a = some o') :
    Balanced o' ↔ Keeps o a := by
  cases a with
  | register =>
    obtain rfl := Option.some.inj hstep
    exact iff_of_true h.register trivial
  | ship c l free =>
    rw [Exporter.step] at hstep
    split_ifs at hstep with hfree
    obtain rfl := Option.some.inj hstep
    exact h.shipChannel_iff hfree.2
  | release l id =>
    rw [Exporter.step] at hstep
    split_ifs at hstep with halive
    obtain rfl := Option.some.inj hstep
    exact h.release_iff halive
  | recv l id corr =>
    rw [Exporter.step] at hstep
    split_ifs at hstep
    obtain rfl := Option.some.inj hstep
    exact h.parkRecv_iff
  | waiters c recvs sends =>
    rw [Exporter.step] at hstep
    split_ifs at hstep with hsub
    obtain rfl := Option.some.inj hstep
    exact iff_of_true (h.waiters recvs sends hsub) trivial
  | died l =>
    rw [Exporter.step] at hstep
    split_ifs at hstep with halive
    obtain rfl := Option.some.inj hstep
    exact iff_of_true (h.died halive) trivial

theorem Balanced.init : Balanced ({} : Exporter V) :=
  ⟨fun _ _ h => (by cases h), fun _ _ h => (by cases h), fun _ _ => rfl, fun _ _ h => (by cases h)⟩

/-- If the step is the death of a link, it takes away what is the link's. -/
def DiesAlone (o : Exporter V) (a : Action V) : Prop :=
  ∀ l o', a = .died l → o.step a = some o' → Departs o o' l

theorem Balanced.diesAlone {a : Action V} (h : Balanced o) : DiesAlone o a := by
  rintro l o' rfl hstep
  rw [Exporter.step] at hstep
  split_ifs at hstep with halive
  obtain rfl := Option.some.inj hstep
  exact h.departs halive

/-- **Runs.** The books balance throughout a run if and only if its steps keep to what their links
hold; and then a link that dies takes its references and its receivers with it, and nothing else.
`Keeps` leaves out the ship over a link that has died already: the source counts its reference like
any other, and it is never repaid, since the link's death has been dealt with. -/
theorem export_books (as : List (Action V)) :
    (States Exporter.step Balanced {} as ↔ Steps Exporter.step Keeps {} as) ∧
      (Steps Exporter.step Keeps {} as → Steps Exporter.step DiesAlone {} as) :=
  ⟨states_iff_steps (I := Balanced) (fun _ h => h)
      (fun _ _ _ h hkeeps hstep => (h.step_iff hstep).mpr hkeeps)
      (fun _ _ _ h hstep hafter => (h.step_iff hstep).mp hafter) as .init,
    Steps.mono_of_invariant (I := Balanced)
      (fun _ _ _ h hkeeps hstep => (h.step_iff hstep).mpr hkeeps)
      (fun _ _ h _ => h.diesAlone) as .init⟩

/-- A channel is shipped twice over one link and once over another; the first releases one of its two
references and dies with a receiver parked. -/
theorem export_books_twoLinks : Steps Exporter.step DiesAlone ({} : Exporter Int)
    [.register, .register, .ship 0 0 1, .ship 0 0 2, .ship 0 1 2, .recv 0 1 7, .recv 1 1 7,
      .release 0 1, .died 0] :=
  (export_books _).2 (by decide +kernel)

/-- A link dies while it has a sender parked: the sender's value is delivered like any other. -/
def parkedSender : List (Action Int) :=
  [.register, .ship 0 0 1, .waiters 0 [] [.remoteOp 0 1 5], .died 0]

/-- So not everything that a link has queued goes with it when it dies; its receivers do. -/
theorem parkedSender_stays : ¬ ∀ as, Steps Exporter.step (fun (o : Exporter Int) a =>
    ∀ l o', a = .died l → o.step a = some o' →
      ∀ c, ∀ w ∈ (o'.chans c).sendWaiters, w.link ≠ some l) {} as := by
  intro hall
  have hsteps := hall parkedSender
  have hlast := (((hsteps _ rfl).2 _ rfl).2 _ rfl).2 _ rfl
  exact hlast.1 0 _ rfl rfl 0 (.remoteOp 0 1 5) List.mem_cons_self rfl

end Exports

end Quoin.Channel
