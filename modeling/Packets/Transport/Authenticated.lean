/-
Sessions reported as authenticated.

The socket holds exactly the keys of the permitted peers, and no unsigned handshake waits of a
peer that has to sign.
-/
import Packets.Transport.Listener

namespace Packets

namespace KeyTable

variable {table table' : KeyTable} {text : String}

theorem mem_heldFor {key : Key} : key ∈ table.heldFor text ↔ (text, key) ∈ table := by
  simp only [heldFor, List.mem_map, List.mem_filter, decide_eq_true_eq]
  constructor
  · rintro ⟨⟨t, k⟩, ⟨hmem, rfl⟩, rfl⟩
    exact hmem
  · intro hmem
    exact ⟨(text, key), ⟨hmem, rfl⟩, rfl⟩

theorem mem_clearMd5 {e : String × Key} :
    e ∈ table.clearMd5 text ↔ e ∈ table ∧ (e.1 = text → isMd5 e.2 = false) := by
  simp [clearMd5, imp_iff_not_or]

theorem mem_delAo {e : String × Key} {sendId recvId : Int} :
    e ∈ table.delAo text sendId recvId ↔
      e ∈ table ∧ (e.1 = text → hasIds sendId recvId e.2 = false) := by
  simp [delAo, imp_iff_not_or]

end KeyTable

theorem AoKey.pack_ok {ao : AoKey} {key : Key} (h : ao.pack = .ok key) :
    ∃ material alg, key = .ao ao.sendId ao.recvId material alg := by
  rw [pack] at h
  cases hkey : keyBytes ao.key with
  | error e => simp [hkey, bind, Except.bind] at h
  | ok material =>
    simp only [hkey, bind, Except.bind, pure, Except.pure, throw, throwThe,
      MonadExceptOf.throw] at h
    refine ⟨material, aoAlgName ao.alg, ?_⟩
    split at h
    · cases h
    split at h
    · cases h
    split at h
    · cases h
    · cases h
      rfl

namespace Auth

variable {auth : Auth} {key : Key}

theorem pack_noAuth_iff : auth.pack = .ok none ↔ auth = .noAuth := by
  cases auth with
  | noAuth => simp [pack]
  | md5 password => cases h : keyBytes password <;> simp [pack, h, Except.map]
  | md5AoFallback password => cases h : keyBytes password <;> simp [pack, h, Except.map]
  | ao mapping =>
    cases mapping with
    | none => simp [pack]
    | some mapping => cases h : mapping.pack <;> simp [pack, h, Except.map]

theorem key?_noAuth : Auth.noAuth.key? = none := rfl

theorem key?_eq_some (h : auth.key? = some key) : auth.pack = .ok (some key) := by
  rw [key?] at h
  split at h
  · cases h
  · cases h
  · next hpack => rw [hpack, h]

/-- What a key installed for a peer looks like. -/
theorem key?_shape (h : auth.key? = some key) :
    (∃ password material, (auth = .md5 password ∨ auth = .md5AoFallback password) ∧
        key = .md5 material) ∨
      ∃ mapping material alg, auth = .ao (some mapping) ∧
        key = .ao mapping.sendId mapping.recvId material alg := by
  have hpack := key?_eq_some h
  cases auth with
  | noAuth => simp [pack] at hpack
  | md5 password =>
    cases hbytes : keyBytes password with
    | error e => simp [pack, hbytes, Except.map] at hpack
    | ok material =>
      simp only [pack, hbytes, Except.map, Except.ok.injEq, Option.some.injEq] at hpack
      exact Or.inl ⟨password, material, Or.inl rfl, hpack.symm⟩
  | md5AoFallback password =>
    cases hbytes : keyBytes password with
    | error e => simp [pack, hbytes, Except.map] at hpack
    | ok material =>
      simp only [pack, hbytes, Except.map, Except.ok.injEq, Option.some.injEq] at hpack
      exact Or.inl ⟨password, material, Or.inr rfl, hpack.symm⟩
  | ao mapping =>
    cases mapping with
    | none => simp [pack] at hpack
    | some mapping =>
      cases hao : mapping.pack with
      | error e => simp [pack, hao, Except.map] at hpack
      | ok key' =>
        simp only [pack, hao, Except.map, Except.ok.injEq, Option.some.injEq] at hpack
        subst hpack
        obtain ⟨material, alg, rfl⟩ := AoKey.pack_ok hao
        exact Or.inr ⟨mapping, material, alg, rfl, rfl⟩

end Auth

namespace KeyTable

variable {table table' : KeyTable} {text : String} {auth : Auth}

/-- Clearing what a peer installed leaves no key for it, and every other. -/
theorem mem_clearAuth (honly : ∀ key, (text, key) ∈ table → auth.key? = some key)
    {e : String × Key} : e ∈ table.clearAuth text auth ↔ e ∈ table ∧ e.1 ≠ text := by
  obtain ⟨t, key⟩ := e
  by_cases ht : t = text
  · subst ht
    simp only [ne_eq, not_true_eq_false, and_false, iff_false]
    intro hmem
    have hin : (t, key) ∈ table := by
      cases auth with
      | noAuth => exact hmem
      | md5 password => exact (mem_clearMd5.mp hmem).1
      | md5AoFallback password => exact (mem_clearMd5.mp hmem).1
      | ao mapping =>
        cases mapping with
        | none => exact hmem
        | some mapping => exact (mem_delAo.mp hmem).1
    rcases Auth.key?_shape (honly key hin) with
      ⟨password, material, hauth, rfl⟩ | ⟨mapping, material, alg, rfl, rfl⟩
    · have hgone : isMd5 (.md5 material) = false := by
        rcases hauth with rfl | rfl
        · exact (mem_clearMd5.mp hmem).2 rfl
        · exact (mem_clearMd5.mp hmem).2 rfl
      cases hgone
    · have hgone := (mem_delAo.mp hmem).2 rfl
      simp [hasIds] at hgone
  · have hother : (t, key) ∈ table.clearAuth text auth ↔ (t, key) ∈ table := by
      cases auth with
      | noAuth => rfl
      | md5 password => simp [clearAuth, mem_clearMd5, ht]
      | md5AoFallback password => simp [clearAuth, mem_clearMd5, ht]
      | ao mapping =>
        cases mapping with
        | none => rfl
        | some mapping => simp [clearAuth, mem_delAo, ht]
    simp [hother, ht]

/-- A key that went in is there, with everything that was. -/
theorem applyAuth_ok {refused : Bool} (hnone : ∀ key, (text, key) ∉ table)
    (h : table.applyAuth text auth refused = .ok table') :
    (auth.required → ∃ key, auth.key? = some key) ∧
      ∀ t key, (t, key) ∈ table' ↔ (t, key) ∈ table ∨ (t = text ∧ auth.key? = some key) := by
  have hheld : table.heldFor text = [] := by
    rw [List.eq_nil_iff_forall_not_mem]
    exact fun key hmem => hnone key (mem_heldFor.mp hmem)
  rw [applyAuth] at h
  split at h
  · cases h
  · next hpack =>
    cases h
    rw [Auth.pack_noAuth_iff] at hpack
    subst hpack
    simp [Auth.key?_noAuth, Auth.required, Auth.mode]
  · next key hpack =>
    split at h
    · cases h
    rw [install.eq_def] at h
    split at h
    · simp [hheld] at h
    · next material hne =>
      cases h
      have hkey : auth.key? = some (.md5 material) := by
        rw [Auth.key?, hpack]
        cases material with
        | nil => exact absurd rfl hne
        | cons b rest => rfl
      refine ⟨fun _ => ⟨_, hkey⟩, fun t key => ?_⟩
      rw [hkey, List.mem_append, mem_clearMd5]
      constructor
      · rintro (⟨hmem, -⟩ | hnew)
        · exact Or.inl hmem
        · cases List.mem_singleton.mp hnew
          exact Or.inr ⟨rfl, rfl⟩
      · rintro (hmem | ⟨rfl, hsame⟩)
        · refine Or.inl ⟨hmem, fun ht => ?_⟩
          have ht' : t = text := ht
          subst ht'
          exact absurd hmem (hnone key)
        · cases hsame
          exact Or.inr (List.mem_singleton.mpr rfl)
    · next sendId recvId material alg =>
      cases h
      have hkey : auth.key? = some (.ao sendId recvId material alg) := by rw [Auth.key?, hpack]
      refine ⟨fun _ => ⟨_, hkey⟩, fun t key => ?_⟩
      rw [hkey, List.mem_append, List.mem_singleton, Prod.mk.injEq, Option.some.injEq,
        eq_comm (a := key)]

theorem applyAuth_of_key {key : Key} (hkey : auth.key? = some key) : ∃ table' : KeyTable,
      table.applyAuth text auth false = .ok table' := by
  have hpack := Auth.key?_eq_some hkey
  rw [applyAuth, hpack]
  rcases Auth.key?_shape hkey with ⟨password, material, -, rfl⟩ | ⟨mapping, material, alg, -, rfl⟩
  · cases material with
    | nil => simp [Auth.key?, hpack] at hkey
    | cons b rest => exact ⟨_, rfl⟩
  · exact ⟨_, rfl⟩

end KeyTable

/-- Completed a handshake signed with a key configured for the peer at the time. -/
def Handshake.Signed (h : Handshake) : Prop :=
  ∃ key entry, h.syn.signed = some key ∧ h.configured = some entry ∧ entry.auth.key? = some key

/-- A connection reported as authenticated: its handshake was, and the key of the peer is
on the listening socket as it is handed up. -/
def AcceptedConn.Authentic (c : AcceptedConn) : Prop :=
  c.authMode ≠ .none →
    c.handshake.Signed ∧
      ∀ held, c.held = some held → ∃ key, c.entry.auth.key? = some key ∧ key ∈ held

namespace Listener

/-- The handshakes that wait for `accept`. -/
def backlog (l : Listener) : List Handshake :=
  match l.sock with
  | none => []
  | some socket => socket.backlog

/-- What was completed and not handed up yet. -/
def waiting (l : Listener) : List Handshake := l.backlog ++ l.taken

/-- What holds while the keys of `todo` are still to be installed. -/
structure Guarded (todo : List String) (l : Listener) : Prop where
  keys : ∀ socket, l.sock = some socket → ∀ text key, (text, key) ∈ socket.keys ↔
    text ∉ todo ∧ ∃ entry, l.peers.get? text = some entry ∧ entry.auth.key? = some key
  installed : l.sock ≠ none → ∀ text entry, text ∉ todo → l.peers.get? text = some entry →
    entry.auth.required → ∃ key, entry.auth.key? = some key
  honest : ∀ h ∈ l.waiting, h.syn.signed ≠ none → h.Signed
  signed : ∀ h ∈ l.waiting, ∀ text entry, h.syn.text = some text →
    l.peers.get? text = some entry → entry.auth.required → h.syn.signed ≠ none
  handed : ∀ c ∈ l.handed, c.Authentic

variable {l : Listener} {todo : List String}

theorem arrive_peers (l : Listener) (syn : Syn) : (l.arrive syn).peers = l.peers := by
  rw [arrive]
  split
  · split
    · rfl
    · rfl
  · rfl

theorem arrivals_peers (l : Listener) (syns : List Syn) : (l.arrivals syns).peers = l.peers := by
  induction syns generalizing l with
  | nil => rfl
  | cons syn rest ih => exact (ih (l.arrive syn)).trans (l.arrive_peers syn)

/-- An unsigned SYN that comes before its peer's key is the only one to fear. -/
theorem Guarded.arrive (h : l.Guarded todo) (syn : Syn)
    (hmeets : syn.signed = none → ∀ text entry, syn.text = some text →
      l.peers.get? text = some entry → entry.auth.required → text ∉ todo) :
    (l.arrive syn).Guarded todo := by
  rw [Listener.arrive]
  split
  next socket family text hsock hsplit =>
    split
    next hdone =>
      obtain ⟨-, hcompletes⟩ := hdone
      have htext : syn.text = some text := by rw [Syn.text, hsplit]; rfl
      -- The new handshake is signed with a key of its peer, or its peer has none.
      have hnew : (syn.signed ≠ none → (⟨syn, l.peers.get? text⟩ : Handshake).Signed) ∧
          ∀ entry, l.peers.get? text = some entry → entry.auth.required → syn.signed ≠ none := by
        rw [KernelSocket.completes] at hcompletes
        split at hcompletes
        · next hunsigned =>
          refine ⟨fun hsigned => absurd hunsigned hsigned, fun entry hentry hrequired => ?_⟩
          have hdue := hmeets hunsigned text entry htext hentry hrequired
          obtain ⟨key, hkey⟩ := h.installed (by simp [hsock]) text entry hdue hentry hrequired
          have hmem := (h.keys socket hsock text key).mpr ⟨hdue, entry, hentry, hkey⟩
          rw [List.isEmpty_iff] at hcompletes
          have hheld := KeyTable.mem_heldFor.mpr hmem
          rw [hcompletes] at hheld
          simp at hheld
        · next key hkey =>
          rw [List.contains_iff_mem, KeyTable.mem_heldFor] at hcompletes
          obtain ⟨-, entry, hentry, hhas⟩ := (h.keys socket hsock text key).mp hcompletes
          exact ⟨fun _ => ⟨key, entry, hkey, hentry, hhas⟩, fun _ _ _ => by simp [hkey]⟩
      have hwaiting : ∀ g, g ∈ (socket.backlog ++ [⟨syn, l.peers.get? text⟩]) ++ l.taken →
          g ∈ l.waiting ∨ g = ⟨syn, l.peers.get? text⟩ := by
        intro g hg
        simp only [List.mem_append, List.mem_singleton] at hg
        rw [waiting, backlog, hsock, List.mem_append]
        tauto
      refine ⟨?_, fun _ => h.installed (by simp [hsock]), ?_, ?_, h.handed⟩
      · rintro _ ⟨rfl⟩
        exact h.keys socket hsock
      · intro g hg hsigned
        rcases hwaiting g hg with hold | rfl
        · exact h.honest g hold hsigned
        · exact hnew.1 hsigned
      · intro g hg t entry ht hentry hrequired
        rcases hwaiting g hg with hold | rfl
        · exact h.signed g hold t entry ht hentry hrequired
        · have hsame : t = text := Option.some.inj (ht.symm.trans htext)
          subst hsame
          exact hnew.2 entry hentry hrequired
    next => exact h
  next => exact h

theorem Guarded.arrivals (h : l.Guarded todo) (syns : List Syn)
    (hmeets : ∀ syn ∈ syns, syn.signed = none → ∀ text entry, syn.text = some text →
      l.peers.get? text = some entry → entry.auth.required → text ∉ todo) :
    (l.arrivals syns).Guarded todo := by
  induction syns generalizing l with
  | nil => exact h
  | cons syn rest ih =>
    have hfirst := h.arrive syn (hmeets syn List.mem_cons_self)
    apply ih hfirst
    intro syn' hmem
    rw [l.arrive_peers]
    exact hmeets syn' (List.mem_cons_of_mem _ hmem)

theorem mem_waiting_arrive {syn : Syn} {g : Handshake} (h : g ∈ (l.arrive syn).waiting) :
    g ∈ l.waiting ∨ l.sock ≠ none ∧ g.syn = syn := by
  rw [arrive] at h
  split at h
  next socket family text hsock hsplit =>
    split at h
    · simp only [waiting, backlog, List.mem_append, List.mem_singleton] at h
      rcases h with (hold | rfl) | htaken
      · exact Or.inl (by simp [waiting, backlog, hsock, hold])
      · exact Or.inr ⟨by simp [hsock], rfl⟩
      · exact Or.inl (by simp [waiting, htaken])
    · exact Or.inl h
  next => exact Or.inl h

theorem arrive_sock_none {syn : Syn} : (l.arrive syn).sock = none ↔ l.sock = none := by
  rw [arrive]
  split
  next hsock _ =>
    split
    · simp [hsock]
    · rfl
  next => rfl

theorem mem_waiting_arrivals {syns : List Syn} {g : Handshake} (h : g ∈ (l.arrivals syns).waiting) :
    g ∈ l.waiting ∨ l.sock ≠ none ∧ g.syn ∈ syns := by
  induction syns generalizing l with
  | nil => exact Or.inl h
  | cons syn rest ih =>
    rcases ih h with hmid | ⟨hsock, hmem⟩
    · rcases mem_waiting_arrive hmid with hold | ⟨hsock, heq⟩
      · exact Or.inl hold
      · exact Or.inr ⟨hsock, by simp [heq]⟩
    · refine Or.inr ⟨fun hnone => hsock (arrive_sock_none.mpr hnone), ?_⟩
      exact List.mem_cons_of_mem _ hmem

theorem forget_peers (l : Listener) (text t : String) :
    (l.forget text).peers.get? t = if t = text then none else l.peers.get? t := by
  rw [forget]
  split
  next hnone =>
    by_cases ht : t = text
    · rw [if_pos ht, ht, hnone]
    · rw [if_neg ht]
  next entry hentry => exact Dict.get?_erase _ _ _

theorem forget_waiting (l : Listener) (text : String) : (l.forget text).waiting = l.waiting := by
  rw [forget]
  split
  · rfl
  · cases hsock : l.sock <;> simp [waiting, backlog, hsock]

theorem Guarded.forget (h : l.Guarded []) (text : String) : (l.forget text).Guarded [] := by
  have hpeers := l.forget_peers text
  have hwaiting := l.forget_waiting text
  refine ⟨?_, ?_, ?_, ?_, ?_⟩
  · intro socket hsock t key
    rw [hpeers]
    rw [Listener.forget] at hsock
    split at hsock
    next hnone =>
      rw [h.keys socket hsock t key]
      by_cases ht : t = text
      · simp [ht, hnone]
      · simp [ht]
    next entry hentry =>
      obtain ⟨old, hold, rfl⟩ := Option.map_eq_some_iff.mp hsock
      have honly : ∀ key, (text, key) ∈ old.keys → entry.auth.key? = some key := by
        intro key hmem
        obtain ⟨-, entry', hentry', hkey⟩ := (h.keys old hold text key).mp hmem
        rw [hentry] at hentry'
        cases hentry'
        exact hkey
      rw [KeyTable.mem_clearAuth honly, h.keys old hold t key]
      by_cases ht : t = text
      · simp [ht]
      · simp [ht]
  · intro hsock t entry ht hentry
    rw [hpeers] at hentry
    split at hentry
    · cases hentry
    · apply h.installed _ t entry ht hentry
      intro hnone
      apply hsock
      rw [Listener.forget]
      split
      · exact hnone
      · simp [hnone]
  · rw [hwaiting]
    exact h.honest
  · rw [hwaiting]
    intro g hg t entry ht hentry
    rw [hpeers] at hentry
    split at hentry
    · cases hentry
    · exact h.signed g hg t entry ht hentry
  · have hhanded : (l.forget text).handed = l.handed := by
      rw [Listener.forget]
      split <;> rfl
    rw [hhanded]
    exact h.handed

theorem install_ok {text : String} {auth : Auth} {refused : Bool} {l' : Listener}
    (h : l.install text auth refused = .ok l') :
    l.sock = none ∧ l' = l ∨
      ∃ socket keys, l.sock = some socket ∧ socket.keys.applyAuth text auth refused = .ok keys ∧
        l' = { l with sock := some { socket with keys := keys } } := by
  rw [install] at h
  split at h
  next hsock =>
    cases h
    exact Or.inl ⟨hsock, rfl⟩
  next socket hsock =>
    cases happly : socket.keys.applyAuth text auth refused with
    | error e => simp [happly, bind, Except.bind] at h
    | ok keys =>
      simp only [happly, bind, Except.bind, pure, Except.pure, Except.ok.injEq] at h
      exact Or.inr ⟨socket, keys, hsock, happly, h.symm⟩

/-- A peer permitted once its key went in. -/
theorem Guarded.permit {text : String} {entry : PeerEntry} {refused : Bool} {l' : Listener}
    (h : l.Guarded []) (hnew : l.peers.get? text = none)
    (hinstall : l.install text entry.auth refused = .ok l')
    (hsigned : entry.auth.required → ∀ g ∈ l.waiting, g.syn.text = some text →
      g.syn.signed ≠ none) :
    ({ l' with peers := l'.peers.set text entry } : Listener).Guarded [] := by
  have hwaiting : ∀ (peers : Dict String PeerEntry) (sock : Option KernelSocket),
      (sock.map KernelSocket.backlog) = l.sock.map KernelSocket.backlog →
      ({ l with sock := sock, peers := peers } : Listener).waiting = l.waiting := by
    intro peers sock hsame
    rw [waiting, waiting, backlog, backlog]
    cases hsock : l.sock <;> cases hsock' : sock <;> simp_all
  -- Whatever the socket, the waiting handshakes are those there were.
  have hrest : ∀ sock : Option KernelSocket,
      (sock.map KernelSocket.backlog) = l.sock.map KernelSocket.backlog →
      (∀ socket, sock = some socket → ∀ t key, (t, key) ∈ socket.keys ↔
        t ∉ ([] : List String) ∧ ∃ entry', (l.peers.set text entry).get? t = some entry' ∧
          entry'.auth.key? = some key) →
      (sock ≠ none → entry.auth.required → ∃ key, entry.auth.key? = some key) →
      ({ l with sock := sock, peers := l.peers.set text entry } : Listener).Guarded [] := by
    intro sock hsame hkeys hinstalled
    have hw := hwaiting (l.peers.set text entry) sock hsame
    refine ⟨hkeys, ?_, ?_, ?_, h.handed⟩
    · intro hsock t entry' ht hentry' hrequired
      rw [Dict.get?_set] at hentry'
      split at hentry'
      · cases hentry'
        exact hinstalled hsock hrequired
      · have hlive : l.sock ≠ none := by
          intro hnone
          rw [hnone] at hsame
          exact hsock (Option.map_eq_none_iff.mp hsame)
        exact h.installed hlive t entry' ht hentry' hrequired
    · rw [hw]
      exact h.honest
    · rw [hw]
      intro g hg t entry' ht hentry' hrequired
      rw [Dict.get?_set] at hentry'
      split at hentry'
      next heq =>
        cases hentry'
        subst heq
        exact hsigned hrequired g hg ht
      next => exact h.signed g hg t entry' ht hentry' hrequired
  rcases install_ok hinstall with ⟨hsock, rfl⟩ | ⟨socket, keys, hsock, happly, rfl⟩
  · have hsame := hrest none (by simp [hsock]) (by simp) (by simp)
    rw [← hsock] at hsame
    exact hsame
  · have hnone : ∀ key, (text, key) ∉ socket.keys := by
      intro key hmem
      obtain ⟨-, entry', hentry', -⟩ := (h.keys socket hsock text key).mp hmem
      simp [hnew] at hentry'
    obtain ⟨hhas, hmem⟩ := KeyTable.applyAuth_ok hnone happly
    apply hrest (some { socket with keys := keys }) (by simp [hsock])
    · rintro _ ⟨rfl⟩ t key
      rw [hmem t key, h.keys socket hsock t key, Dict.get?_set]
      by_cases ht : t = text
      · subst ht
        simp [hnew]
      · simp [ht]
    · exact fun _ => hhas

/-- The keys that `start` still has to install go in, and no unsigned SYN of a peer that
has to sign comes before its key. -/
def StartMeets (l : Listener) (gaps : String → List Syn) (refused : String → Bool) :
    List String → Prop
  | [] => True
  | text :: rest =>
    (∀ syn ∈ gaps text, syn.signed = none → ∀ t entry, syn.text = some t →
      l.peers.get? t = some entry → entry.auth.required → t ∉ text :: rest) ∧
    (∀ entry, l.peers.get? text = some entry → entry.auth.required →
      refused text = false ∧ ∃ key, entry.auth.key? = some key) ∧
    StartMeets l gaps refused rest

theorem startMeets_congr {l' : Listener} {gaps : String → List Syn} {refused : String → Bool}
    (hpeers : l'.peers = l.peers) (order : List String) :
    StartMeets l' gaps refused order ↔ StartMeets l gaps refused order := by
  induction order with
  | nil => rfl
  | cons text rest ih => rw [StartMeets, StartMeets, hpeers, ih]

theorem startPeer_peers (gaps : String → List Syn) (refused : String → Bool) (l : Listener)
    (text : String) : (startPeer gaps refused l text).peers = l.peers := by
  rw [startPeer]
  have harrived := l.arrivals_peers (gaps text)
  split
  · exact harrived
  · split
    · exact harrived
    next l' hinstall =>
      rcases install_ok hinstall with ⟨-, rfl⟩ | ⟨socket, keys, -, -, rfl⟩
      · exact harrived
      · exact harrived

/-- Once the key of a peer is in, one less is to do. -/
theorem Guarded.startPeer {text : String} {rest : List String} {gaps : String → List Syn}
    {refused : String → Bool} (h : l.Guarded (text :: rest)) (hnot : text ∉ rest)
    (hgap : ∀ syn ∈ gaps text, syn.signed = none → ∀ t entry, syn.text = some t →
      l.peers.get? t = some entry → entry.auth.required → t ∉ text :: rest)
    (hkey : ∀ entry, l.peers.get? text = some entry → entry.auth.required →
      refused text = false ∧ ∃ key, entry.auth.key? = some key) :
    (startPeer gaps refused l text).Guarded rest := by
  have harrived := h.arrivals (gaps text) hgap
  rw [← l.arrivals_peers (gaps text)] at hkey
  rw [Listener.startPeer]
  generalize l.arrivals (gaps text) = m at harrived hkey
  split
  next hnone =>
    refine ⟨?_, ?_, harrived.honest, harrived.signed, harrived.handed⟩
    · intro socket hsock t key
      rw [harrived.keys socket hsock t key]
      by_cases ht : t = text
      · simp [ht, hnone]
      · simp [ht]
    · intro hsock t entry ht hentry
      apply harrived.installed hsock t entry _ hentry
      rw [List.mem_cons, not_or]
      refine ⟨?_, ht⟩
      rintro rfl
      simp [hnone] at hentry
  next entry hentry =>
    have happlies : ∀ keys : KeyTable,
        ∃ keys', keys.applyAuth text entry.auth (refused text) = .ok keys' := by
      intro keys
      by_cases hrequired : entry.auth.required
      · obtain ⟨hrefused, key, hhas⟩ := hkey entry hentry hrequired
        rw [hrefused]
        exact KeyTable.applyAuth_of_key hhas
      · have hopen : entry.auth = .noAuth := by
          cases hauth : entry.auth with
          | noAuth => rfl
          | _ => simp [hauth, Auth.required, Auth.mode] at hrequired
        rw [hopen]
        exact ⟨keys, rfl⟩
    cases hsock : m.sock with
    | none =>
      have hstays : m.install text entry.auth (refused text) = .ok m := by rw [install, hsock]
      rw [hstays]
      refine ⟨?_, ?_, harrived.honest, harrived.signed, harrived.handed⟩
      · simp [hsock]
      · simp [hsock]
    | some socket =>
      obtain ⟨keys, happly⟩ := happlies socket.keys
      have hgoes : m.install text entry.auth (refused text) =
          .ok { m with sock := some { socket with keys := keys } } := by
        rw [install, hsock]
        simp [happly, bind, Except.bind, pure, Except.pure]
      rw [hgoes]
      have hnone : ∀ key, (text, key) ∉ socket.keys := by
        intro key hmem
        exact ((harrived.keys socket hsock text key).mp hmem).1 List.mem_cons_self
      obtain ⟨hhas, hmem⟩ := KeyTable.applyAuth_ok hnone happly
      have hwaiting : ({ m with sock := some { socket with keys := keys } } :
          Listener).waiting = m.waiting := by
        simp [waiting, backlog, hsock]
      refine ⟨?_, ?_, hwaiting ▸ harrived.honest, hwaiting ▸ harrived.signed, harrived.handed⟩
      · rintro _ ⟨rfl⟩ t key
        rw [hmem t key, harrived.keys socket hsock t key]
        by_cases ht : t = text
        · subst ht
          simp [hnot, hentry]
        · simp [ht]
      · intro _ t entry' ht hentry' hrequired
        by_cases hsame : t = text
        · subst hsame
          rw [hentry] at hentry'
          cases hentry'
          exact hhas hrequired
        · exact harrived.installed (by simp [hsock]) t entry' (by simp [hsame, ht])
            hentry' hrequired

theorem Guarded.startPeers {gaps : String → List Syn} {refused : String → Bool}
    {order : List String} (h : l.Guarded order) (hnodup : order.Nodup)
    (hmeets : StartMeets l gaps refused order) :
    (order.foldl (Listener.startPeer gaps refused) l).Guarded [] := by
  induction order generalizing l with
  | nil => exact h
  | cons text rest ih =>
    obtain ⟨hgap, hkey, hrest⟩ := hmeets
    obtain ⟨hnot, hnodup⟩ := List.nodup_cons.mp hnodup
    apply ih (h.startPeer hnot hgap hkey) hnodup
    exact (startMeets_congr (startPeer_peers gaps refused l text) rest).mpr hrest

theorem mem_startOrder {text : String} :
    text ∈ l.startOrder ↔ ∃ entry, l.peers.get? text = some entry := by
  rw [startOrder, List.mem_insertionSort, Dict.mem_keys_iff]

theorem nodup_startOrder (l : Listener) : l.startOrder.Nodup :=
  (List.perm_insertionSort _ _).nodup_iff.mpr l.peers.nodup

/-- What must hold before an event: a peer that has to sign is permitted while no unsigned
handshake of it waits, and its key is in before an unsigned SYN of it. -/
def Meets (l : Listener) : Event → Prop
  | .addPeer addr entry refused between => ∀ text, splitAddr addr = some (l.family, text) →
      entry.auth.required →
        (l.sock ≠ none → refused = false ∧ ∃ key, entry.auth.key? = some key) →
          (∀ h ∈ l.waiting, h.syn.text = some text → h.syn.signed ≠ none) ∧
          (l.sock ≠ none → ∀ syn ∈ between, syn.text = some text → syn.signed ≠ none)
  | .start bound gaps refused =>
    l.sock = none → bound = true → StartMeets l gaps refused l.startOrder
  | _ => True

theorem forget_sock_none {text : String} : (l.forget text).sock = none ↔ l.sock = none := by
  rw [forget]
  split
  · rfl
  · simp

theorem arrivals_sock_none {syns : List Syn} : (l.arrivals syns).sock = none ↔ l.sock = none := by
  induction syns generalizing l with
  | nil => rfl
  | cons syn rest ih => exact ih.trans arrive_sock_none

theorem Guarded.addPeer (h : l.Guarded []) {addr : String} {entry : PeerEntry} {refused : Bool}
    {between : List Syn} (hmeets : l.Meets (.addPeer addr entry refused between)) :
    (l.addPeer addr entry refused between).1.Guarded [] := by
  rw [Listener.addPeer]
  split
  · exact h
  next family text hsplit =>
    split
    · exact h
    next hfamily =>
    rw [not_not] at hfamily
    subst hfamily
    have hpopped := (h.forget text).arrivals between (by simp)
    have hnew : ((l.forget text).arrivals between).peers.get? text = none := by
      rw [arrivals_peers, forget_peers, if_pos rfl]
    have hwaits : ∀ g ∈ ((l.forget text).arrivals between).waiting,
        g ∈ l.waiting ∨ l.sock ≠ none ∧ g.syn ∈ between := by
      intro g hg
      rcases mem_waiting_arrivals hg with hold | ⟨hsock, hmem⟩
      · exact Or.inl (l.forget_waiting text ▸ hold)
      · exact Or.inr ⟨fun hnone => hsock (forget_sock_none.mpr hnone), hmem⟩
    have hsock : ((l.forget text).arrivals between).sock = none ↔ l.sock = none :=
      arrivals_sock_none.trans forget_sock_none
    generalize (l.forget text).arrivals between = m at hpopped hnew hwaits hsock
    dsimp only
    cases hinstall : m.install text entry.auth refused with
    | error e => exact hpopped
    | ok l' =>
      apply hpopped.permit hnew hinstall
      intro hrequired g hg htext
      have hgoes : l.sock ≠ none → refused = false ∧ ∃ key, entry.auth.key? = some key := by
        intro hlive
        rcases install_ok hinstall with ⟨hnone, -⟩ | ⟨socket, keys, hlisten, happly, -⟩
        · exact absurd (hsock.mp hnone) hlive
        · have hnone : ∀ key, (text, key) ∉ socket.keys := by
            intro key hmem
            obtain ⟨-, entry', hentry', -⟩ := (hpopped.keys socket hlisten text key).mp hmem
            simp [hnew] at hentry'
          obtain ⟨key, hkey⟩ := (KeyTable.applyAuth_ok hnone happly).1 hrequired
          refine ⟨?_, key, hkey⟩
          rw [KeyTable.applyAuth, Auth.key?_eq_some hkey] at happly
          by_contra hrefused
          rw [Bool.not_eq_false] at hrefused
          simp [hrefused] at happly
      obtain ⟨hold, hbetween⟩ := hmeets text hsplit hrequired hgoes
      rcases hwaits g hg with hwas | ⟨hlive, hmem⟩
      · exact hold g hwas htext
      · exact hbetween hlive g.syn hmem htext

theorem Guarded.start (h : l.Guarded []) {bound : Bool} {gaps : String → List Syn}
    {refused : String → Bool} (hmeets : l.Meets (.start bound gaps refused)) :
    (l.start bound gaps refused).Guarded [] := by
  rw [Listener.start]
  split
  · exact h
  next hgoes =>
    simp only [Bool.or_eq_true, Option.isSome_iff_ne_none, Bool.not_eq_true', not_or,
      not_not, Bool.not_eq_false] at hgoes
    obtain ⟨hsock, hbound⟩ := hgoes
    have hfresh : ({ l with sock := some ⟨[], []⟩ } : Listener).Guarded l.startOrder := by
      have hwaits : ∀ g ∈ ({ l with sock := some ⟨[], []⟩ } : Listener).waiting, g ∈ l.waiting := by
        intro g hg
        simp only [waiting, backlog, List.nil_append] at hg
        simp [waiting, hg]
      refine ⟨?_, ?_, fun g hg => h.honest g (hwaits g hg),
        fun g hg => h.signed g (hwaits g hg), h.handed⟩
      · rintro _ ⟨rfl⟩ text key
        simp only [List.not_mem_nil, false_iff, not_and]
        rintro hnot ⟨entry, hentry, -⟩
        exact hnot (mem_startOrder.mpr ⟨entry, hentry⟩)
      · intro _ text entry hnot hentry
        exact absurd (mem_startOrder.mpr ⟨entry, hentry⟩) hnot
    apply hfresh.startPeers l.nodup_startOrder
    have hpeers : ({ l with sock := some ⟨[], []⟩ } : Listener).peers = l.peers := rfl
    exact (startMeets_congr hpeers l.startOrder).mpr (hmeets hsock hbound)

theorem Guarded.stop (h : l.Guarded []) : l.stop.Guarded [] := by
  have hwaits : ∀ g ∈ l.stop.waiting, g ∈ l.waiting := by
    intro g hg
    simp only [Listener.stop, waiting, backlog, List.nil_append] at hg
    simp [waiting, hg]
  exact ⟨by simp [Listener.stop], by simp [Listener.stop],
    fun g hg => h.honest g (hwaits g hg), fun g hg => h.signed g (hwaits g hg), h.handed⟩

theorem Guarded.accept (h : l.Guarded []) : l.accept.Guarded [] := by
  rw [Listener.accept]
  split
  · exact h
  next socket hsock =>
  split
  · exact h
  next first rest hbacklog =>
  have hwaits : ∀ g, g ∈ rest ++ (l.taken ++ [first]) → g ∈ l.waiting := by
    intro g hg
    simp only [List.mem_append, List.mem_singleton] at hg
    simp only [waiting, backlog, hsock, hbacklog, List.mem_append, List.mem_cons]
    tauto
  refine ⟨?_, fun _ => h.installed (by simp [hsock]), fun g hg => h.honest g (hwaits g hg),
    fun g hg => h.signed g (hwaits g hg), h.handed⟩
  rintro _ ⟨rfl⟩
  exact h.keys socket hsock

/-- What is handed up waited before: its peer signed if it had to. -/
theorem Guarded.handleAccepted (h : l.Guarded []) (usable : Bool) :
    (l.handleAccepted usable).Guarded [] := by
  rw [Listener.handleAccepted]
  split
  · exact h
  next first rest htaken =>
  have hwaits : ∀ g, g ∈ l.backlog ++ rest → g ∈ l.waiting := by
    intro g hg
    rw [List.mem_append] at hg
    rw [waiting, htaken, List.mem_append, List.mem_cons]
    tauto
  have hdropped : ({ l with taken := rest } : Listener).Guarded [] :=
    ⟨h.keys, h.installed, fun g hg => h.honest g (hwaits g hg),
      fun g hg => h.signed g (hwaits g hg), h.handed⟩
  dsimp only
  split
  · exact hdropped
  next text htext =>
  split
  · exact hdropped
  next entry hentry =>
  split
  next =>
    refine ⟨hdropped.keys, hdropped.installed, hdropped.honest, hdropped.signed, ?_⟩
    intro c hc
    rw [List.mem_append, List.mem_singleton] at hc
    rcases hc with hold | rfl
    · exact h.handed c hold
    · intro hrequired
      have hfirst : first ∈ l.waiting := by simp [waiting, htaken]
      refine ⟨h.honest first hfirst (h.signed first hfirst text entry htext hentry hrequired), ?_⟩
      intro held hheld
      obtain ⟨socket, hsock, rfl⟩ := Option.map_eq_some_iff.mp hheld
      obtain ⟨key, hkey⟩ := h.installed (by simp [hsock]) text entry (by simp) hentry hrequired
      refine ⟨key, hkey, ?_⟩
      rw [KeyTable.mem_heldFor, h.keys socket hsock text key]
      exact ⟨by simp, entry, hentry, hkey⟩
  next => exact hdropped

theorem Guarded.step (h : l.Guarded []) (event : Event) (hmeets : l.Meets event) :
    (l.step event).Guarded [] := by
  cases event with
  | addPeer addr entry refused between => exact h.addPeer hmeets
  | removePeer addr =>
    rw [Listener.step, Listener.removePeer]
    split
    · exact h
    · exact h.forget _
  | start bound gaps refused => exact h.start hmeets
  | stop => exact h.stop
  | syn syn => exact h.arrive syn (by simp)
  | accept => exact h.accept
  | handle usable => exact h.handleAccepted usable

/-- Every event of a run meets its condition. -/
def RunMeets : List Event → Listener → Prop
  | [], _ => True
  | event :: rest, l => l.Meets event ∧ RunMeets rest (l.step event)

theorem Guarded.run {events : List Event} (h : l.Guarded []) (hmeets : RunMeets events l) :
    (l.run events).Guarded [] := by
  induction events generalizing l with
  | nil => exact h
  | cons event rest ih => exact ih (h.step event hmeets.1) hmeets.2

theorem guarded_new {bindAddr : String} {port : Nat} (h : Listener.new bindAddr port = some l) :
    l.Guarded [] := by
  obtain ⟨split, -, rfl⟩ := Option.map_eq_some_iff.mp h
  exact ⟨by simp, by simp, by simp [waiting, backlog], by simp [waiting, backlog], by simp⟩

/-- In a run whose events meet the condition, every connection handed up and reported as
authenticated is. -/
theorem run_authentic {bindAddr : String} {port : Nat} {events : List Event}
    (h : Listener.new bindAddr port = some l) (hmeets : RunMeets events l) :
    ∀ c ∈ (l.run events).handed, c.Authentic :=
  ((guarded_new h).run hmeets).handed

/-- Listening on every IPv4 address. -/
def onAny : Listener := ⟨.inet, "0.0.0.0", 179, Dict.empty, none, [], []⟩

theorem new_onAny : Listener.new "0.0.0.0" 179 = some onAny := by
  have hsplit : splitAddr "0.0.0.0" = some (.inet, "0.0.0.0") := by decide +kernel
  rw [new, hsplit]
  rfl

def signedPeer : PeerEntry := ⟨.md5 (some "secret"), none⟩

/-- A peer configured before `start`, whose key goes in before it dials. -/
def signedRun : List Event :=
  [.addPeer "192.0.2.1" signedPeer false [], .start true (fun _ => []) (fun _ => false),
    .syn ⟨"192.0.2.1", signedPeer.auth.key?⟩, .accept, .handle true]

theorem run_authentic_signed :
    (onAny.run signedRun).handed.length = 1 ∧ ∀ c ∈ (onAny.run signedRun).handed, c.Authentic := by
  have hkey : ∃ key, signedPeer.auth.key? = some key :=
    Option.isSome_iff_exists.mp (by decide +kernel)
  refine ⟨by decide +kernel, run_authentic new_onAny ?_⟩
  refine ⟨?_, ?_, trivial, trivial, trivial, trivial⟩
  · intro text _ _ _
    exact ⟨by simp [waiting, backlog, onAny], by simp⟩
  · intro _ _
    have horder : (onAny.step (.addPeer "192.0.2.1" signedPeer false [])).startOrder =
        ["192.0.2.1"] := by decide +kernel
    rw [horder]
    refine ⟨by simp, ?_, trivial⟩
    intro entry hentry _
    have hsame : (onAny.step (.addPeer "192.0.2.1" signedPeer false [])).peers.get?
        "192.0.2.1" = some signedPeer := by decide +kernel
    rw [hsame] at hentry
    cases hentry
    exact ⟨rfl, hkey⟩

/-- The kernel refuses the key at `start`; the peer stays permitted, and dials unsigned. -/
theorem not_run_authentic :
    ¬ ∀ (l : Listener) (bindAddr : String) (port : Nat) (events : List Event),
      Listener.new bindAddr port = some l → ∀ c ∈ (l.run events).handed, c.Authentic := by
  intro h
  have hauthentic := h onAny "0.0.0.0" 179
    [.addPeer "192.0.2.1" signedPeer false [], .start true (fun _ => []) (fun _ => true),
      .syn ⟨"192.0.2.1", none⟩, .accept, .handle true] new_onAny
  have hhanded : (onAny.run [.addPeer "192.0.2.1" signedPeer false [],
      .start true (fun _ => []) (fun _ => true), .syn ⟨"192.0.2.1", none⟩, .accept,
      .handle true]).handed = [⟨⟨⟨"192.0.2.1", none⟩, some signedPeer⟩, signedPeer, some []⟩] := by
    decide +kernel
  rw [hhanded] at hauthentic
  obtain ⟨⟨key, entry, hsigned, -⟩, -⟩ := hauthentic _ List.mem_cons_self (by decide)
  cases hsigned

end Listener

end Packets
