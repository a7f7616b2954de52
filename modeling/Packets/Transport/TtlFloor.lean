/-
The inbound TTL floor of the listening socket (`transport/tcp.py`,
`Listener._apply_listener_gtsm`; `transport/auth.py`, `set_gtsm`), and the steps that keep
it in line with the permitted peers.
-/
import Packets.Transport.Authenticated

namespace Packets

/-- The TTL a peer with `ttl-security` sends with. -/
def gtsmTtl : Int := 255

/-- `set_gtsm`, with the minimum it leaves on the socket; `none` is what it raises.
`taken` says that the kernel takes both options. -/
def setGtsm (hops : Nat) (taken : Bool) : Option Int :=
  if 1 ≤ hops ∧ hops ≤ 254 ∧ taken then some (gtsmTtl - hops + 1) else none

/-- A listener, and the minimum TTL in force on its socket. -/
structure FlooredListener where
  listener : Listener
  floor : Option Int

/-- One event on the listener.  `taken`: the kernel takes the TTL options; `ttl`: what a SYN that
is not part of another event arrives with. -/
structure FlooredEvent where
  event : Listener.Event
  taken : Bool
  ttl : Nat

namespace FlooredListener

/-- The kernel drops a segment below the floor. -/
def drops (f : FlooredListener) (ttl : Nat) : Bool :=
  f.floor.any fun floor => decide ((ttl : Int) < floor)

/-- `_apply_listener_gtsm`.  The errors it counts are left out. -/
def applyListenerGtsm (f : FlooredListener) (taken : Bool) : FlooredListener :=
  if f.listener.sock.isNone || f.listener.peers.isEmpty then f
  else
    let hops := f.listener.peers.values.map PeerEntry.gtsmHops
    if !hops.all Option.isSome then f
    else
      match hops.reduceOption.max? with
      | none => f
      | some largest =>
        match setGtsm largest taken with
        | none => f
        | some minimum => { f with floor := some minimum }

/-- The SYNs that come within another event are those that pass the floor. -/
def step (f : FlooredListener) (e : FlooredEvent) : FlooredListener :=
  match e.event with
  | .addPeer addr entry refused between =>
    match f.listener.addPeer addr entry refused between with
    | (l, .error _) => { f with listener := l }
    | (l, .ok _) => applyListenerGtsm { f with listener := l } e.taken
  | .removePeer addr =>
    match f.listener.removePeer addr with
    | (l, false) => { f with listener := l }
    | (l, true) => applyListenerGtsm { f with listener := l } e.taken
  | .start bound gaps refused =>
    if f.listener.sock.isSome || !bound then f
    else applyListenerGtsm ⟨f.listener.start bound gaps refused, none⟩ e.taken
  | .stop => ⟨f.listener.stop, none⟩
  | .syn syn => if f.drops e.ttl then f else { f with listener := f.listener.arrive syn }
  | event => { f with listener := f.listener.step event }

def run (f : FlooredListener) (events : List FlooredEvent) : FlooredListener := events.foldl step f

end FlooredListener

/-- The largest hop count, where there are peers and every one has `ttl-security`. -/
def largestHops (peers : Dict String PeerEntry) : Option Nat :=
  if ∀ entry ∈ peers.values, entry.gtsmHops.isSome then
    (peers.values.filterMap PeerEntry.gtsmHops).max?
  else none

def requiredFloor (peers : Dict String PeerEntry) : Option Int :=
  (largestHops peers).map fun hops : Nat => 256 - (hops : Int)

/-- `set_gtsm` succeeds for the peers. -/
def Settable (peers : Dict String PeerEntry) (taken : Bool) : Prop :=
  ∃ hops, largestHops peers = some hops ∧ 1 ≤ hops ∧ hops ≤ 254 ∧ taken = true

theorem le_largestHops {peers : Dict String PeerEntry} {largest : Nat} {text : String}
    {entry : PeerEntry} (h : largestHops peers = some largest)
    (hentry : peers.get? text = some entry) :
    ∃ hops, entry.gtsmHops = some hops ∧ hops ≤ largest := by
  rw [largestHops] at h
  split at h
  next hall =>
    have hvalue : entry ∈ peers.values := Dict.mem_values_iff.mpr ⟨text, hentry⟩
    obtain ⟨hops, hhops⟩ := Option.isSome_iff_exists.mp (hall entry hvalue)
    have hmem : hops ∈ peers.values.filterMap PeerEntry.gtsmHops :=
      List.mem_filterMap.mpr ⟨entry, hvalue, hhops⟩
    exact ⟨hops, hhops, (List.max?_eq_some_iff.mp h).2 hops hmem⟩
  next => cases h

namespace FlooredListener

variable {f : FlooredListener}

/-- While the listener is open its floor is the one the permitted peers require, and a
permitted peer loses no SYN its own setting admits. -/
structure Follows (f : FlooredListener) : Prop where
  floor_eq : f.listener.sock ≠ none → f.floor = requiredFloor f.listener.peers
  own_setting : f.listener.sock ≠ none → ∀ text entry ttl,
    f.listener.peers.get? text = some entry → f.drops ttl →
      ∃ hops, entry.gtsmHops = some hops ∧ (ttl : Int) < 256 - hops

theorem follows_iff :
    f.Follows ↔ (f.listener.sock ≠ none → f.floor = requiredFloor f.listener.peers) := by
  refine ⟨Follows.floor_eq, fun hfloor => ⟨hfloor, ?_⟩⟩
  intro hopen text entry ttl hentry hdrops
  rw [drops, hfloor hopen, requiredFloor] at hdrops
  cases hlargest : largestHops f.listener.peers with
  | none => simp [hlargest] at hdrops
  | some largest =>
    obtain ⟨hops, hhops, hle⟩ := le_largestHops hlargest hentry
    rw [hlargest, Option.map_some, Option.any_some, decide_eq_true_eq] at hdrops
    exact ⟨hops, hhops, by omega⟩

theorem follows_closed (hclosed : f.listener.sock = none) : f.Follows :=
  follows_iff.mpr fun hopen => absurd hclosed hopen

theorem applyListenerGtsm_listener (f : FlooredListener) (taken : Bool) :
    (f.applyListenerGtsm taken).listener = f.listener := by
  rw [applyListenerGtsm]
  dsimp only
  repeat' split
  all_goals rfl

/-- What the code computes from the hop counts is `largestHops`. -/
theorem applyListenerGtsm_eq (hopen : f.listener.sock ≠ none) (taken : Bool) :
    f.applyListenerGtsm taken =
      match largestHops f.listener.peers with
      | none => f
      | some largest =>
        match setGtsm largest taken with
        | none => f
        | some minimum => { f with floor := some minimum } := by
  obtain ⟨socket, hsock⟩ := Option.ne_none_iff_exists'.mp hopen
  have hhops : (f.listener.peers.values.map PeerEntry.gtsmHops).reduceOption =
      f.listener.peers.values.filterMap PeerEntry.gtsmHops := List.filterMap_map
  have hall : (f.listener.peers.values.map PeerEntry.gtsmHops).all Option.isSome = true ↔
      ∀ entry ∈ f.listener.peers.values, entry.gtsmHops.isSome := by
    simp
  rw [applyListenerGtsm, largestHops]
  dsimp only
  rw [hhops]
  by_cases hempty : f.listener.peers.isEmpty = true
  · have hvalues : f.listener.peers.values = [] := by
      rw [Dict.values, List.isEmpty_iff.mp hempty, List.map_nil]
    simp [hempty, hvalues]
  · by_cases hevery : ∀ entry ∈ f.listener.peers.values, entry.gtsmHops.isSome
    · simp only [hsock, hempty, hall.mpr hevery, if_pos hevery]
      rfl
    · have hsome : (f.listener.peers.values.map PeerEntry.gtsmHops).all Option.isSome = false :=
        Bool.eq_false_iff.mpr (mt hall.mp hevery)
      simp only [hsock, hempty, hsome, if_neg hevery]
      rfl

/-- The floor recomputed for the peers after a step is either set, or no other than it was
for the peers before. -/
def PeersMeet (before after : Dict String PeerEntry) (taken : Bool) : Prop :=
  Settable after taken ∨ requiredFloor after = requiredFloor before

/-- A floor that is set is the one the peers require; one that is not stays. -/
theorem applyListenerGtsm_meets {l : Listener} {floor : Option Int}
    {before : Dict String PeerEntry} (taken : Bool) (hopen : l.sock ≠ none)
    (hfloor : floor = requiredFloor before) :
    (applyListenerGtsm ⟨l, floor⟩ taken).Follows ↔ PeersMeet before l.peers taken := by
  rw [follows_iff, applyListenerGtsm_listener, applyListenerGtsm_eq hopen, PeersMeet, Settable,
    ← hfloor, requiredFloor, eq_comm (b := floor)]
  cases hlargest : largestHops l.peers with
  | none => simp [hopen]
  | some largest =>
    by_cases hset : 1 ≤ largest ∧ largest ≤ 254 ∧ taken = true
    · have hminimum : setGtsm largest taken = some (256 - (largest : Int)) := by
        rw [setGtsm, if_pos hset, gtsmTtl]
        congr 1
        omega
      simp only [hminimum, Option.map_some]
      exact iff_of_true (by simp) (Or.inl ⟨largest, rfl, hset⟩)
    · have hrefused : setGtsm largest taken = none := by rw [setGtsm, if_neg hset]
      simp [hrefused, hset, hopen]

/-- The key of a peer goes in. -/
def KeyTaken (l : Listener) (text : String) (entry : PeerEntry) (refused : Bool)
    (between : List Syn) : Prop :=
  ∃ installed, ((l.forget text).arrivals between).install text entry.auth refused = .ok installed

/-- A recomputed floor can be set, or stays what it was; and a peer whose key is refused takes no
part in the floor. -/
def Meets (f : FlooredListener) (e : FlooredEvent) : Prop :=
  let peers := f.listener.peers
  match e.event with
  | .addPeer addr entry refused between => f.listener.sock ≠ none →
      ∀ text, splitAddr addr = some (f.listener.family, text) →
        (KeyTaken f.listener text entry refused between →
          PeersMeet peers ((peers.erase text).set text entry) e.taken) ∧
        (¬ KeyTaken f.listener text entry refused between →
          requiredFloor (peers.erase text) = requiredFloor peers)
  | .removePeer addr => f.listener.sock ≠ none →
      ∀ family text, splitAddr addr = some (family, text) → peers.contains text →
        PeersMeet peers (peers.erase text) e.taken
  | .start bound _ _ => f.listener.sock = none → bound = true →
      Settable peers e.taken ∨ requiredFloor peers = none
  | _ => True

/-- Popping a peer that is not there changes nothing. -/
theorem forget_peers_eq (l : Listener) (text : String) :
    (l.forget text).peers = l.peers.erase text := by
  rw [Listener.forget]
  split
  next hnone =>
    have hkeep : l.peers.entries.filter (fun e => decide (e.1 ≠ text)) = l.peers.entries := by
      apply List.filter_eq_self.mpr
      intro e he
      simp only [decide_eq_true_eq]
      rintro rfl
      rw [Dict.mem_entries_iff.mp he] at hnone
      cases hnone
    simp only [Dict.erase, hkeep]
  next => rfl

/-- What `add_peer` does: refuse the address, lose the peer whose key is refused, or permit
it. -/
theorem addPeer_cases (l : Listener) (addr : String) (entry : PeerEntry) (refused : Bool)
    (between : List Syn) :
    (∀ text, splitAddr addr ≠ some (l.family, text)) ∧
        l.addPeer addr entry refused between = (l, .error .value) ∨
      (∃ text e, splitAddr addr = some (l.family, text) ∧ ¬ KeyTaken l text entry refused between ∧
        l.addPeer addr entry refused between = ((l.forget text).arrivals between, .error e)) ∨
      ∃ text installed, splitAddr addr = some (l.family, text) ∧
        ((l.forget text).arrivals between).install text entry.auth refused = .ok installed ∧
        l.addPeer addr entry refused between =
          ({ installed with peers := installed.peers.set text entry }, .ok text) := by
  rw [Listener.addPeer]
  cases haddr : splitAddr addr with
  | none => exact Or.inl ⟨by simp, rfl⟩
  | some split =>
    obtain ⟨family, text⟩ := split
    by_cases hfamily : family = l.family
    · subst hfamily
      simp only [ne_eq, not_true_eq_false, ↓reduceIte]
      cases hinstall : ((l.forget text).arrivals between).install text entry.auth refused with
      | error e =>
        refine Or.inr (Or.inl ⟨text, e, rfl, ?_, rfl⟩)
        rintro ⟨installed, hok⟩
        rw [hinstall] at hok
        cases hok
      | ok installed => exact Or.inr (Or.inr ⟨text, installed, rfl, hinstall, rfl⟩)
    · refine Or.inl ⟨?_, by simp [hfamily]⟩
      intro other heq
      cases heq
      exact hfamily rfl

theorem install_same {l installed : Listener} {text : String} {auth : Auth} {refused : Bool}
    (h : l.install text auth refused = .ok installed) :
    installed.peers = l.peers ∧ (installed.sock = none ↔ l.sock = none) := by
  rcases Listener.install_ok h with ⟨-, rfl⟩ | ⟨socket, keys, hsock, -, rfl⟩
  · exact ⟨rfl, Iff.rfl⟩
  · simp [hsock]

theorem addPeer_follows_iff (h : f.Follows) (addr : String) (entry : PeerEntry)
    (refused : Bool) (between : List Syn) (taken : Bool) (ttl : Nat) :
    (f.step ⟨.addPeer addr entry refused between, taken, ttl⟩).Follows ↔
      f.Meets ⟨.addPeer addr entry refused between, taken, ttl⟩ := by
  have hpeers : ∀ text, ((f.listener.forget text).arrivals between).peers =
      f.listener.peers.erase text := fun text => by
    rw [Listener.arrivals_peers, forget_peers_eq]
  have hclosed : ∀ text, ((f.listener.forget text).arrivals between).sock = none ↔
      f.listener.sock = none := fun text => by
    rw [Listener.arrivals_sock_none, Listener.forget_sock_none]
  have hfloor := h.floor_eq
  rw [step, Meets]
  dsimp only
  rcases addPeer_cases f.listener addr entry refused between with
    ⟨hbad, hadd⟩ | ⟨text, e, haddr, hkey, hadd⟩ | ⟨text, installed, haddr, hinstall, hadd⟩
  · rw [hadd]
    exact iff_of_true h fun _ text haddr => absurd haddr (hbad text)
  · rw [hadd, follows_iff]
    simp only [haddr, Option.some.injEq, Prod.mk.injEq, true_and, forall_eq', hkey,
      not_false_eq_true, forall_const, false_implies, hpeers, ne_eq, hclosed]
    exact forall_congr' fun hopen => by rw [hfloor hopen, eq_comm]
  · obtain ⟨hsame, hsock⟩ := install_same hinstall
    rw [hadd]
    simp only [haddr, Option.some.injEq, Prod.mk.injEq, true_and, forall_eq',
      show KeyTaken f.listener text entry refused between from ⟨installed, hinstall⟩,
      not_true_eq_false, false_implies, and_true, forall_const]
    have hafter : installed.peers = f.listener.peers.erase text := by rw [hsame, hpeers]
    rw [hclosed] at hsock
    by_cases hopen : f.listener.sock = none
    · refine iff_of_true (follows_closed ?_) fun hsome => absurd hopen hsome
      rw [applyListenerGtsm_listener]
      exact hsock.mpr hopen
    · rw [← hafter, forall_prop_of_true hopen]
      exact applyListenerGtsm_meets taken (mt hsock.mp hopen) (hfloor hopen)

theorem removePeer_follows_iff (h : f.Follows) (addr : String) (taken : Bool) (ttl : Nat) :
    (f.step ⟨.removePeer addr, taken, ttl⟩).Follows ↔ f.Meets ⟨.removePeer addr, taken, ttl⟩ := by
  rw [step, Meets]
  dsimp only [Listener.removePeer]
  cases haddr : splitAddr addr with
  | none => exact iff_of_true h (by simp)
  | some split =>
    obtain ⟨family, text⟩ := split
    cases hcontains : f.listener.peers.contains text with
    | false =>
      have hsame : f.listener.forget text = f.listener := by
        have hnone : f.listener.peers.get? text = none := by simpa [Dict.contains] using hcontains
        rw [Listener.forget, hnone]
      dsimp only
      rw [hcontains, hsame]
      refine iff_of_true h ?_
      rintro - _ _ ⟨⟩ hthere
      rw [hcontains] at hthere
      cases hthere
    | true =>
      dsimp only
      rw [hcontains]
      by_cases hopen : f.listener.sock = none
      · refine iff_of_true (follows_closed ?_) fun hsome => absurd hopen hsome
        rw [applyListenerGtsm_listener]
        exact Listener.forget_sock_none.mpr hopen
      · have hstill : (f.listener.forget text).sock ≠ none :=
          mt Listener.forget_sock_none.mp hopen
        have hmeets := applyListenerGtsm_meets taken hstill (h.floor_eq hopen)
        rw [forget_peers_eq] at hmeets
        refine hmeets.trans ⟨?_, fun hall => hall hopen family text rfl hcontains⟩
        rintro hpeers - _ _ ⟨⟩ -
        exact hpeers

theorem startPeer_sock (gaps : String → List Syn) (refused : String → Bool) (l : Listener)
    (text : String) (h : l.sock ≠ none) : (l.startPeer gaps refused text).sock ≠ none := by
  have harrived : (l.arrivals (gaps text)).sock ≠ none := mt Listener.arrivals_sock_none.mp h
  rw [Listener.startPeer]
  split
  · exact harrived
  next entry _ =>
    split
    · exact harrived
    next installed hinstall => exact mt (install_same hinstall).2.mp harrived

/-- A `start` that binds leaves the peers and an open socket. -/
theorem start_same {l : Listener} (hclosed : l.sock = none) (gaps : String → List Syn)
    (refused : String → Bool) :
    (l.start true gaps refused).peers = l.peers ∧ (l.start true gaps refused).sock ≠ none := by
  have hfold : ∀ (todo : List String) (m : Listener), m.sock ≠ none →
      (todo.foldl (Listener.startPeer gaps refused) m).peers = m.peers ∧
        (todo.foldl (Listener.startPeer gaps refused) m).sock ≠ none := by
    intro todo
    induction todo with
    | nil => exact fun m hm => ⟨rfl, hm⟩
    | cons text rest ih =>
      intro m hm
      obtain ⟨hpeers, hsock⟩ := ih _ (startPeer_sock gaps refused m text hm)
      exact ⟨hpeers.trans (Listener.startPeer_peers gaps refused m text), hsock⟩
  rw [Listener.start, if_neg (by simp [hclosed])]
  exact hfold _ { l with sock := some ⟨[], []⟩ } (by simp)

theorem start_follows_iff (h : f.Follows) (bound : Bool) (gaps : String → List Syn)
    (refused : String → Bool) (taken : Bool) (ttl : Nat) :
    (f.step ⟨.start bound gaps refused, taken, ttl⟩).Follows ↔
      f.Meets ⟨.start bound gaps refused, taken, ttl⟩ := by
  rw [step, Meets]
  dsimp only
  by_cases hstarts : f.listener.sock = none ∧ bound = true
  · obtain ⟨hclosed, rfl⟩ := hstarts
    obtain ⟨hpeers, hopen⟩ := start_same hclosed gaps refused
    rw [if_neg (by simp [hclosed]), forall_prop_of_true hclosed, forall_prop_of_true rfl]
    have hmeets := applyListenerGtsm_meets taken hopen
      (show (none : Option Int) = requiredFloor Dict.empty from rfl)
    rw [hpeers] at hmeets
    exact hmeets
  · have hrefused : (f.listener.sock.isSome || !bound) = true := by
      cases hsock : f.listener.sock with
      | some socket => rfl
      | none =>
        cases bound with
        | false => rfl
        | true => exact absurd ⟨hsock, rfl⟩ hstarts
    rw [if_pos hrefused]
    exact iff_of_true h fun hclosed hbound => absurd ⟨hclosed, hbound⟩ hstarts

theorem Follows.same (h : f.Follows) {l : Listener} (hpeers : l.peers = f.listener.peers)
    (hsock : l.sock = none ↔ f.listener.sock = none) : Follows { f with listener := l } := by
  rw [follows_iff]
  intro hopen
  dsimp only
  rw [hpeers]
  exact h.floor_eq (mt hsock.mpr hopen)

theorem accept_same (l : Listener) :
    l.accept.peers = l.peers ∧ (l.accept.sock = none ↔ l.sock = none) := by
  rw [Listener.accept]
  split
  next => exact ⟨rfl, Iff.rfl⟩
  next socket hsock =>
    split
    · exact ⟨rfl, Iff.rfl⟩
    · simp [hsock]

theorem handle_same (l : Listener) (usable : Bool) :
    (l.handleAccepted usable).peers = l.peers ∧
      ((l.handleAccepted usable).sock = none ↔ l.sock = none) := by
  rw [Listener.handleAccepted]
  dsimp only
  repeat' split
  all_goals exact ⟨rfl, Iff.rfl⟩

/-- One event keeps the floor right exactly when it meets the condition. -/
theorem step_follows_iff (h : f.Follows) (e : FlooredEvent) : (f.step e).Follows ↔ f.Meets e := by
  obtain ⟨event, taken, ttl⟩ := e
  cases event with
  | addPeer addr entry refused between =>
    exact addPeer_follows_iff h addr entry refused between taken ttl
  | removePeer addr => exact removePeer_follows_iff h addr taken ttl
  | start bound gaps refused => exact start_follows_iff h bound gaps refused taken ttl
  | stop => exact iff_of_true (follows_closed rfl) trivial
  | syn syn =>
    refine iff_of_true ?_ trivial
    rw [step]
    dsimp only
    split
    · exact h
    · exact h.same (f.listener.arrive_peers syn) Listener.arrive_sock_none
  | accept => exact iff_of_true (h.same (accept_same _).1 (accept_same _).2) trivial
  | handle usable =>
    exact iff_of_true (h.same (handle_same _ usable).1 (handle_same _ usable).2) trivial

/-- Every event of a run meets its condition. -/
def RunMeets : List FlooredEvent → FlooredListener → Prop
  | [], _ => True
  | e :: rest, f => f.Meets e ∧ RunMeets rest (f.step e)

theorem run_follows_iff (events : List FlooredEvent) (h : f.Follows) :
    (∀ n, (f.run (events.take n)).Follows) ↔ RunMeets events f := by
  induction events generalizing f with
  | nil => exact iff_of_true (fun n => by rw [List.take_nil]; exact h) trivial
  | cons e rest ih =>
    constructor
    · intro hall
      have hstep : (f.step e).Follows := hall 1
      exact ⟨(step_follows_iff h e).mp hstep, (ih hstep).mp fun n => hall (n + 1)⟩
    · rintro ⟨hmeets, hrest⟩ n
      cases n with
      | zero => exact h
      | succ n => exact (ih ((step_follows_iff h e).mpr hmeets)).mpr hrest n

/-- The floor follows the permitted peers through a whole run exactly when every event of
it meets the condition: nothing else raises the floor, and nothing lowers it. -/
theorem floor_follows_iff (l : Listener) (bindAddr : String) (port : Nat)
    (events : List FlooredEvent) (h : Listener.new bindAddr port = some l) :
    (∀ n, (run ⟨l, none⟩ (events.take n)).Follows) ↔ RunMeets events ⟨l, none⟩ := by
  refine run_follows_iff events (follows_closed ?_)
  obtain ⟨split, -, rfl⟩ := Option.map_eq_some_iff.mp h
  rfl

/-- A peer `hops` away, with `ttl-security`. -/
def nearPeer (hops : Nat) : PeerEntry := ⟨.noAuth, some hops⟩

/-- A listener opened, a direct peer permitted, its hop count widened, and a SYN from it. -/
def widenedRun : List FlooredEvent :=
  [⟨.start true (fun _ => []) (fun _ => false), true, 0⟩,
    ⟨.addPeer "192.0.2.1" (nearPeer 1) false [], true, 0⟩,
    ⟨.addPeer "192.0.2.1" (nearPeer 2) false [], true, 0⟩,
    ⟨.syn ⟨"192.0.2.1", none⟩, true, 254⟩]

theorem floor_follows_widened :
    (run ⟨Listener.onAny, none⟩ widenedRun).floor = some 254 ∧
      ∀ n, (run ⟨Listener.onAny, none⟩ (widenedRun.take n)).Follows := by
  refine ⟨by decide +kernel, (floor_follows_iff Listener.onAny "0.0.0.0" 179 widenedRun
    Listener.new_onAny).mpr ⟨fun _ _ => Or.inr rfl, ?_, ?_, trivial, trivial⟩⟩
  all_goals
    intro _ text haddr
    have htext : splitAddr "192.0.2.1" = some (.inet, "192.0.2.1") := by decide +kernel
    cases htext.symm.trans haddr
    refine ⟨fun _ => Or.inl ?_, fun hnot => absurd ⟨_, rfl⟩ hnot⟩
  · exact ⟨1, by decide +kernel, by decide, by decide, rfl⟩
  · exact ⟨2, by decide +kernel, by decide, by decide, rfl⟩

/-- A direct peer with `ttl-security`, and then one without: the second is permitted, and
its SYNs are dropped by the first one's floor. -/
theorem not_floor_follows :
    ¬ ∀ (l : Listener) (bindAddr : String) (port : Nat) (events : List FlooredEvent),
      Listener.new bindAddr port = some l → ∀ n, (run ⟨l, none⟩ (events.take n)).Follows := by
  intro h
  have hrun := h Listener.onAny "0.0.0.0" 179
    [⟨.start true (fun _ => []) (fun _ => false), true, 0⟩,
      ⟨.addPeer "192.0.2.1" (nearPeer 1) false [], true, 0⟩,
      ⟨.addPeer "192.0.2.2" ⟨.noAuth, none⟩ false [], true, 0⟩] Listener.new_onAny 3
  have hfloor := hrun.floor_eq (by decide +kernel)
  exact absurd hfloor (by decide +kernel)

end FlooredListener

end Packets
