/-
When the listeners follow the configuration.

A listener knows its peers by canonical address, the plugin by what is configured; where the
spellings agree, the permitted peers mirror the sessions.
-/
import Packets.Bgp.Plugin
import Packets.Transport.Authenticated

namespace Packets

namespace Listener

variable {l : Listener}

/-- Where a listener is bound, and whether it listens. -/
def place (l : Listener) : AddrFamily × String × Nat × Bool :=
  (l.family, l.text, l.port, l.sock.isSome)

theorem forget_place (l : Listener) (text : String) : (l.forget text).place = l.place := by
  rw [forget]
  split
  · rfl
  · simp [place]

theorem removePeer_place (l : Listener) (addr : String) : (l.removePeer addr).1.place = l.place := by
  rw [removePeer]
  split
  · rfl
  · exact l.forget_place _

theorem removePeer_peers {addr : String} (h : splitAddr addr = some (l.family, addr)) (t : String) :
    (l.removePeer addr).1.peers.get? t = if t = addr then none else l.peers.get? t := by
  rw [removePeer, h]
  exact l.forget_peers addr t

theorem applyAuth_of_packed (keys : KeyTable) (text : String) {auth : Auth}
    (hkey : auth.required → ∃ key, auth.key? = some key) :
    ∃ keys', keys.applyAuth text auth false = .ok keys' := by
  by_cases hrequired : auth.required
  · obtain ⟨key, hhas⟩ := hkey hrequired
    exact KeyTable.applyAuth_of_key hhas
  · cases auth with
    | noAuth => exact ⟨keys, rfl⟩
    | _ => simp [Auth.required, Auth.mode] at hrequired

/-- A peer of the listener's family whose key can be packed is permitted. -/
theorem addPeer_permits {addr text : String} {entry : PeerEntry}
    (hsplit : splitAddr addr = some (l.family, text))
    (hkey : l.sock.isSome → entry.auth.required → ∃ key, entry.auth.key? = some key) :
    (l.addPeer addr entry false []).2 = .ok text ∧
      (l.addPeer addr entry false []).1.place = l.place ∧
      ∀ t, (l.addPeer addr entry false []).1.peers.get? t =
        if t = text then some entry else l.peers.get? t := by
  have hplace := l.forget_place text
  have hsock : (l.forget text).sock.isSome = l.sock.isSome := congrArg (·.2.2.2) hplace
  have hpeers := l.forget_peers text
  have hinstall : ∃ l', (l.forget text).install text entry.auth false = .ok l' ∧
      l'.peers = (l.forget text).peers ∧ l'.place = l.place := by
    rw [install]
    cases hlisten : (l.forget text).sock with
    | none => exact ⟨_, rfl, rfl, hplace⟩
    | some socket =>
      have hpacked := hkey (by rw [← hsock, hlisten]; rfl)
      obtain ⟨keys, happly⟩ := applyAuth_of_packed socket.keys text hpacked
      refine ⟨{ l.forget text with sock := some { socket with keys := keys } }, ?_, rfl, ?_⟩
      · simp only [happly, bind, Except.bind, pure, Except.pure]
      · rw [← hplace, place, place, hlisten]
        rfl
  obtain ⟨l', hgoes, hsame, hstays⟩ := hinstall
  have hadd : l.addPeer addr entry false [] =
      ({ l' with peers := l'.peers.set text entry }, .ok text) := by
    rw [addPeer, hsplit]
    simp [arrivals, hgoes]
  rw [hadd]
  refine ⟨rfl, hstays, fun t => ?_⟩
  rw [Dict.get?_set, hsame, hpeers t]
  by_cases ht : t = text
  · simp [ht]
  · simp [ht]

end Listener

namespace Listening

variable {s : Listening}

/-- Every session is as its configuration says, and each listener permits exactly the
sessions, under the spelling they are configured with. -/
structure Mirrors (s : Listening) : Prop where
  auth : ∀ addr n, s.peers.get? addr = some n → n.auth = authOf s.platform n.config
  canonical : ∀ l ∈ s.listeners, ∀ addr n, s.peers.get? addr = some n →
    splitAddr addr = some (l.family, addr)
  permitted : ∀ l ∈ s.listeners, ∀ text, l.peers.get? text = (s.peers.get? text).map Neighbor.entry

def places (s : Listening) : List (AddrFamily × String × Nat × Bool) :=
  s.listeners.map Listener.place

/-- Nothing but the peers has changed. -/
structure SameSide (s s' : Listening) : Prop where
  platform : s'.platform = s.platform
  started : s'.started = s.started
  config : s'.config = s.config
  localAs : s'.localAs = s.localAs
  places : s'.places = s.places

theorem SameSide.refl (s : Listening) : SameSide s s := ⟨rfl, rfl, rfl, rfl, rfl⟩

theorem SameSide.trans {s₁ s₂ s₃ : Listening} (h : SameSide s₁ s₂) (h' : SameSide s₂ s₃) :
    SameSide s₁ s₃ :=
  ⟨h'.platform.trans h.platform, h'.started.trans h.started, h'.config.trans h.config,
    h'.localAs.trans h.localAs, h'.places.trans h.places⟩

/-- A neighbour that no listener raises about: configured by its canonical address, of the
listener's family, with a key that can be packed where a socket is open. -/
def Welcome (places : List (AddrFamily × String × Nat × Bool)) (platform : Platform)
    (addr : String) (cfg : PeerConfig) : Prop :=
  ∀ place ∈ places, splitAddr addr = some (place.1, addr) ∧
    (place.2.2.2 = true → (authOf platform cfg).required →
      ∃ key, (authOf platform cfg).key? = some key)

theorem permitAll_welcome {addr : String} {entry : PeerEntry} {listeners : List Listener}
    (h : ∀ l ∈ listeners, splitAddr addr = some (l.family, addr) ∧
      (l.sock.isSome → entry.auth.required → ∃ key, entry.auth.key? = some key)) :
    permitAll addr entry listeners =
      (listeners.map fun l => (l.addPeer addr entry false []).1, true) := by
  induction listeners with
  | nil => rfl
  | cons l rest ih =>
    obtain ⟨hsplit, hkey⟩ := h l List.mem_cons_self
    obtain ⟨hok, -, -⟩ := Listener.addPeer_permits hsplit hkey
    rw [permitAll]
    generalize hadd : l.addPeer addr entry false [] = added at hok
    obtain ⟨l', result⟩ := added
    subst hok
    simp only [ih fun l hl => h l (List.mem_cons_of_mem _ hl), List.map_cons, hadd]

theorem removePeer_spec (h : s.Mirrors) (addr : String) :
    (s.removePeer addr).Mirrors ∧ SameSide s (s.removePeer addr) ∧
      ∀ t, (s.removePeer addr).peers.get? t = if t = addr then none else s.peers.get? t := by
  rw [removePeer]
  cases hget : s.peers.get? addr with
  | none =>
    refine ⟨h, .refl s, fun t => ?_⟩
    by_cases ht : t = addr
    · rw [if_pos ht, ht, hget]
    · rw [if_neg ht]
  | some n =>
    have hpeers : ∀ t, (s.peers.erase addr).get? t =
        if t = addr then none else s.peers.get? t := fun t => Dict.get?_erase _ _ _
    refine ⟨⟨?_, ?_, ?_⟩, ⟨rfl, rfl, rfl, rfl, ?_⟩, hpeers⟩
    · intro t n' ht
      rw [hpeers] at ht
      split at ht
      · cases ht
      · exact h.auth t n' ht
    · intro l' hl' t n' ht
      obtain ⟨l, hl, rfl⟩ := List.mem_map.mp hl'
      have hfamily : (l.removePeer addr).1.family = l.family :=
        congrArg Prod.fst (l.removePeer_place addr)
      rw [hpeers] at ht
      split at ht
      · cases ht
      · rw [hfamily]
        exact h.canonical l hl t n' ht
    · intro l' hl' t
      obtain ⟨l, hl, rfl⟩ := List.mem_map.mp hl'
      rw [Listener.removePeer_peers (h.canonical l hl addr n hget), hpeers]
      split
      · rfl
      · exact h.permitted l hl t
    · rw [places, places, List.map_map]
      exact List.map_congr_left fun l _ => l.removePeer_place addr

theorem addPeer_spec (h : s.Mirrors) {addr : String} {cfg : PeerConfig}
    (hwelcome : Welcome s.places s.platform addr cfg) :
    (s.addPeer addr cfg).2 = true ∧ (s.addPeer addr cfg).1.Mirrors ∧
      SameSide s (s.addPeer addr cfg).1 ∧
      ∀ t, (s.addPeer addr cfg).1.peers.get? t =
        if t = addr then some ⟨cfg, authOf s.platform cfg⟩ else s.peers.get? t := by
  have hready : ∀ l ∈ s.listeners, splitAddr addr = some (l.family, addr) ∧
      (l.sock.isSome → (authOf s.platform cfg).required →
        ∃ key, (authOf s.platform cfg).key? = some key) :=
    fun l hl => hwelcome l.place (List.mem_map_of_mem hl)
  have htold : permitAll addr ⟨authOf s.platform cfg, cfg.ttlSecurity⟩ s.listeners = _ :=
    permitAll_welcome hready
  have hpeers : ∀ t, (s.peers.set addr ⟨cfg, authOf s.platform cfg⟩).get? t =
      if t = addr then some ⟨cfg, authOf s.platform cfg⟩ else s.peers.get? t :=
    fun t => Dict.get?_set _ _ _ _
  rw [addPeer]
  simp only [Neighbor.entry, htold]
  refine ⟨trivial, ⟨?_, ?_, ?_⟩, ⟨rfl, rfl, rfl, rfl, ?_⟩, hpeers⟩
  · intro t n ht
    rw [hpeers] at ht
    split at ht
    · cases ht
      rfl
    · exact h.auth t n ht
  · intro l' hl' t n ht
    obtain ⟨l, hl, rfl⟩ := List.mem_map.mp hl'
    obtain ⟨hsplit, hkey⟩ := hready l hl
    have hfamily : (l.addPeer addr ⟨authOf s.platform cfg, cfg.ttlSecurity⟩ false []).1.family =
        l.family := congrArg Prod.fst (Listener.addPeer_permits hsplit hkey).2.1
    rw [hpeers] at ht
    rw [hfamily]
    split at ht
    next heq =>
      subst heq
      exact hsplit
    next => exact h.canonical l hl t n ht
  · intro l' hl' t
    obtain ⟨l, hl, rfl⟩ := List.mem_map.mp hl'
    obtain ⟨hsplit, hkey⟩ := hready l hl
    rw [(Listener.addPeer_permits hsplit hkey).2.2 t, hpeers]
    split
    · rfl
    · exact h.permitted l hl t
  · rw [places, places, List.map_map]
    apply List.map_congr_left
    intro l hl
    obtain ⟨hsplit, hkey⟩ := hready l hl
    exact (Listener.addPeer_permits hsplit hkey).2.1

theorem authOf_congr (platform : Platform) {old new : PeerConfig}
    (hpassword : old.password = new.password) (hao : old.ao = new.ao) :
    authOf platform old = authOf platform new := by
  rw [authOf, authOf, resolveAuth, resolveAuth, hpassword, hao]

theorem kept_of_needsReset {old new : PeerConfig} (h : needsReset old new = false) :
    old.password = new.password ∧ old.ao = new.ao ∧ old.ttlSecurity = new.ttlSecurity := by
  simp only [needsReset, Bool.or_eq_false_iff, decide_eq_false_iff_not, not_not] at h
  tauto

/-- The session of a neighbour is built anew. -/
def Joins (s : Listening) (addr : String) (cfg : PeerConfig) : Prop :=
  ∀ n, s.peers.get? addr = some n → needsReset n.config cfg = true

theorem reconcileNeighbor_spec (h : s.Mirrors) {addr : String} {cfg : PeerConfig}
    (hwelcome : s.Joins addr cfg → Welcome s.places s.platform addr cfg) :
    (s.reconcileNeighbor (addr, cfg)).2 = true ∧ (s.reconcileNeighbor (addr, cfg)).1.Mirrors ∧
      SameSide s (s.reconcileNeighbor (addr, cfg)).1 ∧
      ∀ t, (s.reconcileNeighbor (addr, cfg)).1.peers.get? t =
        if t = addr then some ⟨cfg, authOf s.platform cfg⟩ else s.peers.get? t := by
  rw [reconcileNeighbor]
  cases hget : s.peers.get? addr with
  | none =>
    apply addPeer_spec h
    exact hwelcome fun n hn => by simp [hget] at hn
  | some n =>
    dsimp only
    split
    next hreset =>
      obtain ⟨hgone, hside, hpeers⟩ := removePeer_spec h addr
      have hjoins : s.Joins addr cfg := by
        intro n' hn'
        rw [hget] at hn'
        cases hn'
        exact hreset
      have hready := hwelcome hjoins
      rw [← hside.places, ← hside.platform] at hready
      obtain ⟨hok, hmirrors, hside', hpeers'⟩ := addPeer_spec hgone hready
      refine ⟨hok, hmirrors, hside.trans hside', fun t => ?_⟩
      rw [hpeers' t, hpeers t, hside.platform]
      by_cases ht : t = addr
      · simp [ht]
      · simp [ht]
    next hkept =>
      rw [Bool.not_eq_true] at hkept
      obtain ⟨hpassword, hao, httl⟩ := kept_of_needsReset hkept
      have hauth : n.auth = authOf s.platform cfg :=
        (h.auth addr n hget).trans (authOf_congr s.platform hpassword hao)
      have hpeers : ∀ t, (s.peers.set addr { n with config := cfg }).get? t =
          if t = addr then some ⟨cfg, authOf s.platform cfg⟩ else s.peers.get? t := by
        intro t
        rw [Dict.get?_set, ← hauth]
      refine ⟨rfl, ⟨?_, ?_, ?_⟩, ⟨rfl, rfl, rfl, rfl, rfl⟩, hpeers⟩
      · intro t n' ht
        rw [hpeers] at ht
        split at ht
        · cases ht
          rfl
        · exact h.auth t n' ht
      · intro l hl t n' ht
        rw [hpeers] at ht
        split at ht
        next heq => exact heq ▸ h.canonical l hl addr n hget
        next => exact h.canonical l hl t n' ht
      · intro l hl t
        rw [hpeers, h.permitted l hl t]
        split
        next heq =>
          subst heq
          simp [hget, Neighbor.entry, hauth, httl]
        next => rfl

/-- The loop over the configured neighbours. -/
theorem reconcileEach_spec {todo : List (String × PeerConfig)}
    (hnodup : (todo.map Prod.fst).Nodup) (h : s.Mirrors)
    (hwelcome : ∀ e ∈ todo, s.Joins e.1 e.2 → Welcome s.places s.platform e.1 e.2) :
    (runEach reconcileNeighbor todo s).2 = true ∧ (runEach reconcileNeighbor todo s).1.Mirrors ∧
      SameSide s (runEach reconcileNeighbor todo s).1 ∧
      (∀ e ∈ todo, (runEach reconcileNeighbor todo s).1.peers.get? e.1 =
        some ⟨e.2, authOf s.platform e.2⟩) ∧
      ∀ t, t ∉ todo.map Prod.fst →
        (runEach reconcileNeighbor todo s).1.peers.get? t = s.peers.get? t := by
  induction todo generalizing s with
  | nil => exact ⟨rfl, h, .refl s, by simp, fun t _ => rfl⟩
  | cons e rest ih =>
    obtain ⟨addr, cfg⟩ := e
    rw [List.map_cons, List.nodup_cons] at hnodup
    obtain ⟨hok, hmirrors, hside, hpeers⟩ :=
      reconcileNeighbor_spec h (hwelcome (addr, cfg) List.mem_cons_self)
    rw [runEach]
    generalize hnext : s.reconcileNeighbor (addr, cfg) = next at hok hmirrors hside hpeers
    obtain ⟨s', ok⟩ := next
    cases hok
    dsimp only at hmirrors hside hpeers ⊢
    -- What comes later is not touched by this turn.
    have hlater : ∀ e ∈ rest, s'.peers.get? e.1 = s.peers.get? e.1 := by
      intro e he
      rw [hpeers, if_neg]
      rintro rfl
      exact hnodup.1 (List.mem_map.mpr ⟨e, he, rfl⟩)
    obtain ⟨hok', hmirrors', hside', hin, hout⟩ := ih hnodup.2 hmirrors (by
      intro e he hjoins
      rw [hside.places, hside.platform]
      apply hwelcome e (List.mem_cons_of_mem _ he)
      intro n hn
      exact hjoins n ((hlater e he).trans hn))
    refine ⟨hok', hmirrors', hside.trans hside', ?_, ?_⟩
    · intro e he
      rcases List.mem_cons.mp he with rfl | he
      · rw [hout addr hnodup.1, hpeers, if_pos rfl]
      · rw [hin e he, hside.platform]
    · intro t ht
      rw [List.map_cons, List.mem_cons, not_or] at ht
      rw [hout t ht.2, hpeers, if_neg ht.1]

theorem removeEach_spec (addrs : List String) (h : s.Mirrors) :
    (addrs.foldl removePeer s).Mirrors ∧ SameSide s (addrs.foldl removePeer s) ∧
      ∀ t, (addrs.foldl removePeer s).peers.get? t =
        if t ∈ addrs then none else s.peers.get? t := by
  induction addrs generalizing s with
  | nil => exact ⟨h, .refl s, fun t => by simp⟩
  | cons addr rest ih =>
    obtain ⟨hgone, hside, hpeers⟩ := removePeer_spec h addr
    obtain ⟨hmirrors, hside', hpeers'⟩ := ih hgone
    refine ⟨hmirrors, hside.trans hside', fun t => ?_⟩
    rw [List.foldl_cons, hpeers' t, hpeers t]
    by_cases ht : t ∈ rest
    · simp [ht]
    · simp [ht]

theorem shutdownAll_spec (h : s.Mirrors) :
    s.shutdownAll.Mirrors ∧ SameSide s s.shutdownAll ∧ ∀ t, s.shutdownAll.peers.get? t = none := by
  obtain ⟨hmirrors, hside, hpeers⟩ := removeEach_spec s.peers.keys h
  refine ⟨hmirrors, hside, fun t => ?_⟩
  rw [shutdownAll, hpeers t]
  split
  · rfl
  next hnot =>
    cases hget : s.peers.get? t with
    | none => rfl
    | some n => exact absurd (Dict.mem_keys_iff.mpr ⟨n, hget⟩) hnot

/-- The sessions are the configured neighbours. -/
theorem reconcileNeighbors_spec {neighbors : Dict String PeerConfig} (h : s.Mirrors)
    (hwelcome : ∀ addr cfg, neighbors.get? addr = some cfg → s.Joins addr cfg →
      Welcome s.places s.platform addr cfg) :
    (s.reconcileNeighbors neighbors).2 = true ∧ (s.reconcileNeighbors neighbors).1.Mirrors ∧
      SameSide s (s.reconcileNeighbors neighbors).1 ∧
      ∀ t, (s.reconcileNeighbors neighbors).1.peers.get? t =
        (neighbors.get? t).map fun cfg => ⟨cfg, authOf s.platform cfg⟩ := by
  obtain ⟨hmirrors, hside, hpeers⟩ := removeEach_spec (s.dropped neighbors) h
  have hdropped : ∀ t, t ∈ s.dropped neighbors ↔
      (∃ n, s.peers.get? t = some n) ∧ neighbors.get? t = none := by
    intro t
    simp [dropped, List.mem_filter, Dict.mem_keys_iff, Dict.contains]
  obtain ⟨hok, hmirrors', hside', hin, hout⟩ :=
    reconcileEach_spec neighbors.nodup hmirrors (by
      intro e he hjoins
      have hget := Dict.mem_entries_iff.mp he
      rw [hside.places, hside.platform]
      apply hwelcome e.1 e.2 hget
      intro n hn
      apply hjoins n
      rw [hpeers, if_neg, hn]
      rw [hdropped, hget]
      simp)
  refine ⟨hok, hmirrors', hside.trans hside', fun t => ?_⟩
  cases hget : neighbors.get? t with
  | some cfg =>
    have hset := hin (t, cfg) (Dict.mem_entries_iff.mpr hget)
    rw [hside.platform] at hset
    exact hset
  | none =>
    have hnot : t ∉ neighbors.entries.map Prod.fst := by
      intro hmem
      obtain ⟨cfg, hcfg⟩ := Dict.mem_keys_iff.mp hmem
      simp [hget] at hcfg
    rw [show (s.reconcileNeighbors neighbors).1.peers.get? t = _ from hout t hnot, hpeers]
    split
    · rfl
    next hkept =>
      cases hpeer : s.peers.get? t with
      | none => rfl
      | some n => exact absurd ((hdropped t).mpr ⟨⟨n, hpeer⟩, hget⟩) hkept

/-- The sessions told to a listener that is not open yet. -/
theorem permitEach_spec {todo : List (String × Neighbor)} {l : Listener}
    (hnodup : (todo.map Prod.fst).Nodup) (hsock : l.sock = none)
    (hsplit : ∀ e ∈ todo, splitAddr e.1 = some (l.family, e.1)) :
    (runEach permitSession todo l).2 = true ∧ (runEach permitSession todo l).1.place = l.place ∧
      (∀ e ∈ todo, (runEach permitSession todo l).1.peers.get? e.1 = some e.2.entry) ∧
      ∀ t, t ∉ todo.map Prod.fst →
        (runEach permitSession todo l).1.peers.get? t = l.peers.get? t := by
  induction todo generalizing l with
  | nil => exact ⟨rfl, rfl, by simp, fun t _ => rfl⟩
  | cons e rest ih =>
    rw [List.map_cons, List.nodup_cons] at hnodup
    obtain ⟨hok, hplace, hpeers⟩ := Listener.addPeer_permits (hsplit e List.mem_cons_self)
      (show l.sock.isSome → e.2.entry.auth.required → _ by simp [hsock])
    have htold : permitSession l e = ((l.addPeer e.1 e.2.entry false []).1, true) := by
      rw [permitSession, hok]
      rfl
    rw [runEach, htold]
    dsimp only
    generalize (l.addPeer e.1 e.2.entry false []).1 = l' at hplace hpeers
    have hfamily : l'.family = l.family := congrArg Prod.fst hplace
    have hsock' : l'.sock = none := by
      have hsame : l'.sock.isSome = l.sock.isSome := congrArg (·.2.2.2) hplace
      rw [hsock] at hsame
      simpa using hsame
    obtain ⟨hok', hplace', hin, hout⟩ := ih hnodup.2 hsock' (by
      intro e' he'
      rw [hfamily]
      exact hsplit e' (List.mem_cons_of_mem _ he'))
    refine ⟨hok', hplace'.trans hplace, ?_, ?_⟩
    · intro e' he'
      rcases List.mem_cons.mp he' with rfl | he'
      · rw [hout e'.1 hnodup.1, hpeers, if_pos rfl]
      · exact hin e' he'
    · intro t ht
      rw [List.map_cons, List.mem_cons, not_or] at ht
      rw [hout t ht.2, hpeers, if_neg ht.1]

/-- A listener opened for sessions of its own family. -/
theorem startListener_spec {listen : ListenBlock} {family : AddrFamily} {text : String}
    (h : s.Mirrors) (hnone : s.listeners = []) (hlisten : s.listen = some listen)
    (haddress : splitAddr listen.address = some (family, text))
    (hcanonical : ∀ addr n, s.peers.get? addr = some n → splitAddr addr = some (family, addr)) :
    s.startListener.2 = true ∧ s.startListener.1.Mirrors ∧
      s.startListener.1.places = [(family, text, listen.port, false)] ∧
      ∃ listeners, s.startListener.1 = { s with listeners := listeners } := by
  have hnew : Listener.new listen.address listen.port =
      some ⟨family, text, listen.port, Dict.empty, none, [], []⟩ := by
    rw [Listener.new, haddress]
    rfl
  obtain ⟨hok, hplace, hin, hout⟩ := permitEach_spec
    (l := ⟨family, text, listen.port, Dict.empty, none, [], []⟩) s.peers.nodup rfl
    fun e he => hcanonical e.1 e.2 (Dict.mem_entries_iff.mp he)
  rw [startListener, hlisten]
  simp only [hnew, hok, if_true, hnone, List.nil_append]
  generalize (runEach _ s.peers.entries _).1 = l at hplace hin hout
  have hfamily : l.family = family := congrArg Prod.fst hplace
  refine ⟨trivial, ⟨h.auth, ?_, ?_⟩, ?_, [l], rfl⟩
  · intro l' hl' addr n hn
    rw [List.mem_singleton.mp hl', hfamily]
    exact hcanonical addr n hn
  · intro l' hl' t
    rw [List.mem_singleton.mp hl']
    cases hget : s.peers.get? t with
    | some n => exact hin (t, n) (Dict.mem_entries_iff.mpr hget)
    | none =>
      apply hout t
      intro hmem
      obtain ⟨n, hn⟩ := Dict.mem_keys_iff.mp hmem
      simp [hget] at hn
  · simp only [places, List.map_cons, List.map_nil, hplace]
    rfl

end Listening

namespace Listener

variable {l : Listener}

theorem startPeer_quiet (refused : String → Bool) (l : Listener) (text : String) :
    (startPeer (fun _ => []) refused l text).place = l.place := by
  rw [startPeer]
  simp only [arrivals, List.foldl_nil]
  split
  · rfl
  · split
    · rfl
    next l' hinstall =>
      rcases install_ok hinstall with ⟨-, rfl⟩ | ⟨socket, keys, hsock, -, rfl⟩
      · rfl
      · simp [place, hsock]

/-- An open socket, with the same peers permitted, whatever keys are refused. -/
theorem start_opens (refused : String → Bool) :
    (l.start true (fun _ => []) refused).place = (l.family, l.text, l.port, true) ∧
      (l.start true (fun _ => []) refused).peers = l.peers := by
  rw [start]
  split
  next hopen =>
    simp only [Bool.not_true, Bool.or_false] at hopen
    simp [place, hopen]
  next =>
    have hfold : ∀ (order : List String) (l' : Listener),
        (order.foldl (startPeer (fun _ => []) refused) l').place = l'.place ∧
          (order.foldl (startPeer (fun _ => []) refused) l').peers = l'.peers := by
      intro order
      induction order with
      | nil => exact fun l' => ⟨rfl, rfl⟩
      | cons text rest ih =>
        intro l'
        obtain ⟨hplace, hpeers⟩ := ih (startPeer (fun _ => []) refused l' text)
        exact ⟨hplace.trans (startPeer_quiet refused l' text),
          hpeers.trans (startPeer_peers _ refused l' text)⟩
    exact hfold l.startOrder { l with sock := some ⟨[], []⟩ }

end Listener

namespace Listening

variable {s : Listening}

theorem turn_spec (h : s.Mirrors) :
    s.turn.Mirrors ∧
      s.turn.places = s.places.map (fun place => (place.1, place.2.1, place.2.2.1, true)) := by
  refine ⟨⟨h.auth, ?_, ?_⟩, ?_⟩
  · intro l' hl' addr n hn
    obtain ⟨l, hl, rfl⟩ := List.mem_map.mp hl'
    rw [show (l.start true _ _).family = l.family from congrArg Prod.fst (l.start_opens _).1]
    exact h.canonical l hl addr n hn
  · intro l' hl' text
    obtain ⟨l, hl, rfl⟩ := List.mem_map.mp hl'
    rw [(l.start_opens _).2]
    exact h.permitted l hl text
  · rw [places, places, turn, List.map_map, List.map_map]
    exact List.map_congr_left fun l _ => (l.start_opens _).1

def neighbors (s : Listening) : Dict String PeerConfig :=
  match s.config with
  | none => Dict.empty
  | some body => body.neighbors

/-- The listeners of a started plugin follow its configuration: one is open exactly on the
configured address and port, permits exactly the neighbours of its family, with their
authentication, and what it accepts from a neighbour is adopted by that neighbour's session. -/
structure Follows (s : Listening) : Prop where
  bound : match s.listen with
    | none => s.listeners = []
    | some listen => ∃ l, s.listeners = [l] ∧
        splitAddr listen.address = some (l.family, l.text) ∧ l.port = listen.port
  opens : ∀ l ∈ s.turn.listeners, l.sock.isSome
  permitted : ∀ l ∈ s.listeners, ∀ text entry, l.peers.get? text = some entry ↔
    ∃ addr cfg, s.neighbors.get? addr = some cfg ∧ splitAddr addr = some (l.family, text) ∧
      entry = ⟨authOf s.platform cfg, cfg.ttlSecurity⟩
  adopted : ∀ l ∈ s.listeners, ∀ addr cfg text source, s.neighbors.get? addr = some cfg →
    splitAddr addr = some (l.family, text) → splitAddr source = some (l.family, text) →
      s.adopter l source = some addr

/-- A `listen` block that can serve the neighbours of a section: a bare address, of the family of
them all, and they are configured by their canonical address. -/
def Serves (listen : ListenBlock) (body : RouterBgp) : Prop :=
  ∃ family text, splitAddr listen.address = some (family, text) ∧
    ∀ addr cfg, body.neighbors.get? addr = some cfg → splitAddr addr = some (family, addr)

/-- The session of a neighbour is built anew by a commit. -/
def Anew (s : Listening) (body : RouterBgp) (addr : String) (cfg : PeerConfig) : Prop :=
  (s.localAs ≠ 0 ∧ s.localAs ≠ body.localAs) ∨ s.Joins addr cfg

/-- What must hold before an event: a `listen` block serves every neighbour, a listener stays
configured where it is, and a session built beside an open socket has a key that can be packed.
-/
def Meets (s : Listening) : Event → Prop
  | .turn => True
  | .start => s.started = false ∧
      ∀ body listen, s.config = some body → body.listen = some listen → Serves listen body
  | .commit none => s.listeners = []
  | .commit (some body) => s.started = true →
      (∀ listen, body.listen = some listen → Serves listen body) ∧
      (∀ l ∈ s.listeners, ∃ listen, body.listen = some listen ∧
        splitAddr listen.address = some (l.family, l.text) ∧ listen.port = l.port) ∧
      ∀ l ∈ s.listeners, l.sock.isSome → ∀ addr cfg, body.neighbors.get? addr = some cfg →
        s.Anew body addr cfg → (authOf s.platform cfg).required →
          ∃ key, (authOf s.platform cfg).key? = some key

/-- What holds between events: the sessions are the configured neighbours, the listeners
mirror them and are bound where they should be. -/
structure Tracks (s : Listening) : Prop where
  mirrors : s.Mirrors
  peers : ∀ addr, s.peers.get? addr =
    (s.neighbors.get? addr).map fun cfg => ⟨cfg, authOf s.platform cfg⟩
  idle : s.started = false → s.places = []
  bound : s.started = true → match s.listen with
    | none => s.places = []
    | some listen => ∃ family text isOpen,
        splitAddr listen.address = some (family, text) ∧
          s.places = [(family, text, listen.port, isOpen)]

theorem tracks_new (platform : Platform) : (new platform).Tracks where
  mirrors := ⟨by simp [new], by simp [new], by simp [new]⟩
  peers addr := by simp [new, neighbors]
  idle _ := rfl
  bound h := by simp [new] at h

theorem places_eq_nil : s.places = [] ↔ s.listeners = [] := List.map_eq_nil_iff

theorem Tracks.follows (h : s.Tracks) (hstarted : s.started = true) : s.Follows := by
  have hbound := h.bound hstarted
  have hentry : ∀ addr, (s.peers.get? addr).map Neighbor.entry =
      (s.neighbors.get? addr).map fun cfg => ⟨authOf s.platform cfg, cfg.ttlSecurity⟩ := by
    intro addr
    rw [h.peers addr, Option.map_map]
    rfl
  have hconfigured : ∀ l ∈ s.listeners, ∀ addr cfg, s.neighbors.get? addr = some cfg →
      splitAddr addr = some (l.family, addr) := by
    intro l hl addr cfg hcfg
    apply h.mirrors.canonical l hl addr ⟨cfg, authOf s.platform cfg⟩
    rw [h.peers addr, hcfg]
    rfl
  refine ⟨?_, ?_, ?_, ?_⟩
  · cases hlisten : s.listen with
    | none =>
      rw [hlisten] at hbound
      exact places_eq_nil.mp hbound
    | some listen =>
      rw [hlisten] at hbound
      obtain ⟨family, text, isOpen, haddress, hplaces⟩ := hbound
      obtain ⟨l, hl, hplace⟩ := List.map_eq_singleton_iff.mp hplaces
      simp only [Listener.place, Prod.mk.injEq] at hplace
      obtain ⟨rfl, rfl, hport, -⟩ := hplace
      exact ⟨l, hl, haddress, hport⟩
  · intro l hl
    have hmem := List.mem_map_of_mem (f := Listener.place) hl
    rw [show s.turn.listeners.map Listener.place = s.turn.places from rfl,
      (turn_spec h.mirrors).2] at hmem
    obtain ⟨place, -, hplace⟩ := List.mem_map.mp hmem
    exact (congrArg (·.2.2.2) hplace).symm
  · intro l hl text entry
    rw [h.mirrors.permitted l hl, hentry, Option.map_eq_some_iff]
    constructor
    · rintro ⟨cfg, hcfg, rfl⟩
      exact ⟨text, cfg, hcfg, hconfigured l hl text cfg hcfg, rfl⟩
    · rintro ⟨addr, cfg, hcfg, hsplit, rfl⟩
      have hsame : addr = text := by
        have hown := (hconfigured l hl addr cfg hcfg).symm.trans hsplit
        cases hown
        rfl
      subst hsame
      exact ⟨cfg, hcfg, rfl⟩
  · intro l hl addr cfg text source hcfg hsplit hsource
    have hsame : addr = text := by
      have hown := (hconfigured l hl addr cfg hcfg).symm.trans hsplit
      cases hown
      rfl
    subst hsame
    have hpeer : s.peers.get? addr = some ⟨cfg, authOf s.platform cfg⟩ := by
      rw [h.peers addr, hcfg]
      rfl
    have hpermitted := h.mirrors.permitted l hl addr
    rw [hpeer] at hpermitted
    simp [adopter, hsource, Dict.contains, hpermitted, hpeer]

theorem Mirrors.of_same {s' : Listening} (h : s.Mirrors) (hplatform : s'.platform = s.platform)
    (hpeers : s'.peers = s.peers) (hlisteners : s'.listeners = s.listeners) : s'.Mirrors := by
  refine ⟨?_, ?_, ?_⟩
  · rw [hplatform, hpeers]
    exact h.auth
  · rw [hlisteners, hpeers]
    exact h.canonical
  · rw [hlisteners, hpeers]
    exact h.permitted

theorem Tracks.turn (h : s.Tracks) : s.turn.Tracks := by
  obtain ⟨hmirrors, hplaces⟩ := turn_spec h.mirrors
  refine ⟨hmirrors, h.peers, fun hidle => ?_, fun hstarted => ?_⟩
  · rw [hplaces, h.idle hidle]
    rfl
  · have hbound := h.bound hstarted
    rw [hplaces]
    change match s.listen with
      | none => _
      | some listen => _
    cases hlisten : s.listen with
    | none =>
      rw [hlisten] at hbound
      simp only [hbound, List.map_nil]
    | some listen =>
      rw [hlisten] at hbound
      obtain ⟨family, text, isOpen, haddress, hbound⟩ := hbound
      exact ⟨family, text, true, haddress, by rw [hbound]; rfl⟩

/-- Opening what is configured, where nothing listens yet. -/
theorem open_tracks (hmirrors : s.Mirrors) (hnone : s.listeners = []) (hstarted : s.started = true)
    (hpeers : ∀ addr, s.peers.get? addr =
      (s.neighbors.get? addr).map fun cfg => ⟨cfg, authOf s.platform cfg⟩)
    (hserves : ∀ body listen, s.config = some body → body.listen = some listen →
      Serves listen body) :
    s.startListener.2 = true ∧ s.startListener.1.Tracks := by
  cases hlisten : s.listen with
  | none =>
    have hstays : s.startListener = (s, true) := by rw [startListener, hlisten]
    rw [hstays]
    refine ⟨rfl, hmirrors, hpeers, fun _ => places_eq_nil.mpr hnone, fun _ => ?_⟩
    rw [hlisten]
    exact places_eq_nil.mpr hnone
  | some listen =>
    obtain ⟨body, hbody, hblock⟩ := Option.bind_eq_some_iff.mp hlisten
    obtain ⟨family, text, haddress, hcanonical⟩ := hserves body listen hbody hblock
    obtain ⟨hok, hmirrors', hplaces, listeners, heq⟩ :=
      startListener_spec hmirrors hnone hlisten haddress (by
        intro addr n hn
        rw [hpeers addr, neighbors, hbody] at hn
        obtain ⟨cfg, hcfg, -⟩ := Option.map_eq_some_iff.mp hn
        exact hcanonical addr cfg hcfg)
    rw [heq] at hmirrors' hplaces ⊢
    refine ⟨hok, hmirrors', hpeers, fun hidle => ?_, fun _ => ?_⟩
    · exact absurd (hidle.symm.trans hstarted) (by simp)
    · change match s.listen with
        | none => _
        | some listen => _
      rw [hlisten]
      exact ⟨family, text, false, haddress, hplaces⟩

/-- A section committed: the sessions become its neighbours, and a listener that is there
stays. -/
theorem Tracks.commit (h : s.Tracks) (body : RouterBgp) (hmeets : s.Meets (.commit (some body))) :
    (s.commitConfig (some body)).2 = true ∧ (s.commitConfig (some body)).1.Tracks := by
  let moved : Listening := { s with config := some body, localAs := body.localAs }
  have hmoved : moved.Mirrors := h.mirrors.of_same rfl rfl rfl
  -- The sessions are all stopped when the AS changes.
  obtain ⟨before, hbefore, hmirrors, hside, hpeers⟩ :
      ∃ before, before = (if s.localAs ≠ 0 ∧ s.localAs ≠ body.localAs then moved.shutdownAll
          else moved) ∧ before.Mirrors ∧ SameSide moved before ∧
        ∀ addr cfg, before.Joins addr cfg → s.Anew body addr cfg := by
    by_cases hchanged : s.localAs ≠ 0 ∧ s.localAs ≠ body.localAs
    · obtain ⟨hmirrors, hside, -⟩ := shutdownAll_spec hmoved
      exact ⟨_, (if_pos hchanged).symm, hmirrors, hside, fun _ _ _ => Or.inl hchanged⟩
    · exact ⟨_, (if_neg hchanged).symm, hmoved, .refl _, fun _ _ hjoins => Or.inr hjoins⟩
  have hplaces : before.places = s.places := hside.places
  have hwelcome : ∀ addr cfg, body.neighbors.get? addr = some cfg → before.Joins addr cfg →
      Welcome before.places before.platform addr cfg := by
    intro addr cfg hcfg hjoins place hplace
    rw [hplaces] at hplace
    rw [hside.platform]
    obtain ⟨l, hl, rfl⟩ := List.mem_map.mp hplace
    have hstarted : s.started = true := by
      by_contra hidle
      rw [Bool.not_eq_true] at hidle
      rw [places_eq_nil.mp (h.idle hidle)] at hl
      exact absurd hl List.not_mem_nil
    obtain ⟨hserves, hkept, hkeys⟩ := hmeets hstarted
    obtain ⟨listen, hblock, haddress, -⟩ := hkept l hl
    obtain ⟨family, text, haddress', hcanonical⟩ := hserves listen hblock
    have hsame : l.family = family := by
      have hone := haddress.symm.trans haddress'
      cases hone
      rfl
    refine ⟨?_, fun hopen => hkeys l hl hopen addr cfg hcfg (hpeers addr cfg hjoins)⟩
    rw [show l.place.1 = family from hsame]
    exact hcanonical addr cfg hcfg
  obtain ⟨hok, hmirrors', hside', hsessions⟩ := reconcileNeighbors_spec hmirrors hwelcome
  have hcommit : s.commitConfig (some body) =
      if (before.reconcileNeighbors body.neighbors).1.started &&
          (before.reconcileNeighbors body.neighbors).1.listeners.isEmpty then
        (before.reconcileNeighbors body.neighbors).1.startListener
      else ((before.reconcileNeighbors body.neighbors).1, true) := by
    rw [commitConfig, hbefore]
    rw [hbefore] at hok
    rw [if_pos hok]
  rw [hcommit]
  have hall := hside.trans hside'
  generalize (before.reconcileNeighbors body.neighbors).1 = after at hmirrors' hall hsessions
  have hconfig : after.config = some body := hall.config
  have hstarted : after.started = s.started := hall.started
  have hafter : after.places = s.places := hall.places
  have htracked : ∀ addr, after.peers.get? addr =
      (after.neighbors.get? addr).map fun cfg => ⟨cfg, authOf after.platform cfg⟩ := by
    intro addr
    rw [hsessions addr, neighbors, hconfig, hall.platform, hside.platform]
  split
  next hopens =>
    rw [Bool.and_eq_true, List.isEmpty_iff] at hopens
    apply open_tracks hmirrors' hopens.2 hopens.1 htracked
    intro body' listen hbody' hblock
    rw [hconfig] at hbody'
    cases hbody'
    exact (hmeets (hstarted.symm.trans hopens.1)).1 listen hblock
  next hstays =>
    refine ⟨rfl, hmirrors', htracked, fun hidle => ?_, fun hrunning => ?_⟩
    · rw [hafter]
      exact h.idle (hstarted.symm.trans hidle)
    · -- A listener is there, and the section keeps it where it is.
      obtain ⟨-, hkept, -⟩ := hmeets (hstarted.symm.trans hrunning)
      have hlisten : after.listen = body.listen := by rw [listen, hconfig]; rfl
      have hbound := h.bound (hstarted.symm.trans hrunning)
      have hsome : s.listeners ≠ [] := by
        intro hnone
        apply hstays
        rw [Bool.and_eq_true, List.isEmpty_iff]
        exact ⟨hrunning, places_eq_nil.mp (hafter.trans (places_eq_nil.mpr hnone))⟩
      cases hwas : s.listen with
      | none =>
        rw [hwas] at hbound
        exact absurd (places_eq_nil.mp hbound) hsome
      | some old =>
        rw [hwas] at hbound
        obtain ⟨family, text, isOpen, -, hone⟩ := hbound
        obtain ⟨l, hl, hplace⟩ := List.map_eq_singleton_iff.mp hone
        obtain ⟨listen, hblock, haddress, hport⟩ := hkept l (by simp [hl])
        rw [hlisten, hblock, hafter]
        refine ⟨l.family, l.text, l.sock.isSome, haddress, ?_⟩
        rw [places, hl, List.map_singleton, Listener.place, hport]

theorem Tracks.step (h : s.Tracks) (event : Event) (hmeets : s.Meets event) :
    (s.step event).2 = true ∧ (s.step event).1.Tracks := by
  cases event with
  | turn => exact ⟨rfl, h.turn⟩
  | start =>
    obtain ⟨hidle, hserves⟩ := hmeets
    exact open_tracks (s := { s with started := true }) (h.mirrors.of_same rfl rfl rfl)
      (places_eq_nil.mp (h.idle hidle)) rfl h.peers hserves
  | commit body =>
    cases body with
    | some body => exact h.commit body hmeets
    | none =>
      obtain ⟨hmirrors, hside, hgone⟩ := shutdownAll_spec h.mirrors
      have hnone : s.shutdownAll.places = [] := hside.places.trans (places_eq_nil.mpr hmeets)
      exact ⟨rfl, hmirrors.of_same rfl rfl rfl, hgone, fun _ => hnone, fun _ => hnone⟩

/-- Every event of a run meets its condition. -/
def RunMeets : List Event → Listening → Prop
  | [], _ => True
  | event :: rest, s => s.Meets event ∧ RunMeets rest (s.step event).1

theorem Tracks.run {events : List Event} (h : s.Tracks) (hmeets : RunMeets events s) :
    (s.run events).2 = true ∧ (s.run events).1.Tracks := by
  induction events generalizing s with
  | nil => exact ⟨rfl, h⟩
  | cons event rest ih =>
    obtain ⟨hok, hnext⟩ := h.step event hmeets.1
    obtain ⟨hrest, hlast⟩ := ih hnext hmeets.2
    exact ⟨by rw [run, hok, hrest]; rfl, hlast⟩

/-- In a run whose events meet the condition nothing raises, and once the plugin runs its
listeners follow the configuration. -/
theorem run_follows (platform : Platform) (events : List Event)
    (hmeets : RunMeets events (new platform)) :
    ((new platform).run events).2 = true ∧
      (((new platform).run events).1.started = true → ((new platform).run events).1.Follows) := by
  obtain ⟨hok, htracks⟩ := (tracks_new platform).run hmeets
  exact ⟨hok, htracks.follows⟩

def linux : Platform := ⟨false, true, fun _ => true⟩

def neighborOf (address : String) : PeerConfig :=
  { address := address, remoteAs := 65001, localAs := 65000, routerId := 1,
    password := some "secret" }

/-- A section that listens on every IPv4 address. -/
def listeningBody (addrs : List String) : RouterBgp where
  localAs := 65000
  listen := some { address := "0.0.0.0" }
  neighbors := Dict.ofKeys (fun addr => some (neighborOf addr)) addrs

/-- Loaded at boot, started, and its socket opened. -/
theorem run_follows_one :
    ((new linux).run [.commit (some (listeningBody ["192.0.2.1"])), .start, .turn]).2 = true ∧
      (((new linux).run
        [.commit (some (listeningBody ["192.0.2.1"])), .start, .turn]).1.started = true →
          ((new linux).run
            [.commit (some (listeningBody ["192.0.2.1"])), .start, .turn]).1.Follows) := by
  apply run_follows
  refine ⟨fun hrunning => absurd hrunning (by decide), ⟨by decide +kernel, ?_⟩, trivial, trivial⟩
  intro body listen hbody hblock
  have hsame : ((new linux).step (.commit (some (listeningBody ["192.0.2.1"])))).1.config =
      some (listeningBody ["192.0.2.1"]) := rfl
  rw [hsame] at hbody
  cases hbody
  cases hblock
  refine ⟨.inet, "0.0.0.0", by decide +kernel, fun addr cfg hcfg => ?_⟩
  rw [listeningBody, Dict.get?_ofKeys] at hcfg
  split at hcfg
  next hmem =>
    rw [List.mem_singleton.mp hmem]
    decide +kernel
  next => cases hcfg

/-- A neighbour of each family beside one listener: starting raises. -/
theorem not_run_follows :
    ¬ ∀ (platform : Platform) (events : List Event),
      (∀ event ∈ events, event.prepared platform = true) →
        ((new platform).run events).2 = true ∧
          (((new platform).run events).1.started = true →
            ((new platform).run events).1.Follows) := by
  intro h
  obtain ⟨hok, -⟩ := h linux
    [.commit (some (listeningBody ["192.0.2.1", "2001:db8::1"])), .start] (by decide +kernel)
  exact absurd hok (by decide +kernel)

end Listening

end Packets
