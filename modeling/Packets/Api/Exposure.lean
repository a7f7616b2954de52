/-
Where the API may listen without a credential (`config.py`, `engine.py`).

The host of the bind string must pass for loopback.  What `int()` reads is a parameter.
-/
import Packets.Config.ConfigStore
import Packets.Rib.AddressText
import Mathlib.Data.List.DropRight

namespace Packets

/-- What `str.isspace` holds of, and `str.strip` takes off. -/
def isSpace (c : Char) : Bool :=
  (9 ≤ c.toNat && c.toNat ≤ 13) || (28 ≤ c.toNat && c.toNat ≤ 32) ||
    c.toNat ∈ [0x85, 0xa0, 0x1680, 0x2028, 0x2029, 0x202f, 0x205f, 0x3000] ||
    (0x2000 ≤ c.toNat && c.toNat ≤ 0x200a)

def isBracket (c : Char) : Bool := c = '[' || c = ']'

/-- `str.strip`, of the characters to take off. -/
def trim (p : Char → Bool) (text : List Char) : List Char := (text.dropWhile p).rdropWhile p

inductive BindError where
  | unterminated
  | notAPort (port : List Char)
  | outOfRange (port : Int)
  | exposed (host : List Char)
deriving DecidableEq, Repr

def DEFAULT_API_PORT : Int := 8179

/-- The host and the port of a stripped bind string, as text; `none` when a bracket is not
closed. -/
def splitBind : List Char → Option (List Char × Option (List Char))
  | '[' :: inner =>
    if ']' ∈ inner then
      match (inner.dropWhile (· ≠ ']')).drop 1 with
      | ':' :: port => some (inner.takeWhile (· ≠ ']'), some port)
      | _ => some (inner.takeWhile (· ≠ ']'), none)
    else none
  | raw =>
    if raw.count ':' = 1 then
      some (raw.takeWhile (· ≠ ':'), some ((raw.dropWhile (· ≠ ':')).drop 1))
    else some (raw, none)

section Reading

variable (int : List Char → Option Int)

/-- `parse_bind` -/
def parseBind (text : List Char) : Except BindError (List Char × Int) :=
  match splitBind (trim isSpace text) with
  | none => .error .unterminated
  | some (host, port) =>
    match port.elim (some DEFAULT_API_PORT) int with
    | none => .error (.notAPort (port.getD []))
    | some n =>
      if 0 ≤ n ∧ n ≤ 65535 then .ok (if host = [] then "127.0.0.1".toList else host, n)
      else .error (.outOfRange n)

/-- The name `is_loopback` judges, before it is put in lower case. -/
def bareName (host : List Char) : List Char := trim isBracket (trim isSpace host)

/-- `is_loopback`.  Of the letters of these names, `lower` makes each only from itself and
its capital. -/
def isLoopback (host : List Char) : Bool :=
  let name := (bareName host).map Char.toLower
  name ∈ ["localhost".toList, "ip6-localhost".toList, "::1".toList, "0:0:0:0:0:0:0:1".toList] ||
    "127.".toList.isPrefixOf name

/-- The `token` or `token-file` of `api.auth`. -/
def hasAuth (doc : Json) : Bool :=
  match getPath doc ["api", "auth"] with
  | some (.dict auth) =>
    (auth.lookup "token").any Json.truthy || (auth.lookup "token-file").any Json.truthy
  | _ => false

def isInsecure (doc : Json) : Bool :=
  match getPath doc ["api", "insecure"] with
  | some (.bool insecure) => insecure
  | _ => false

/-- What `_prepare_core` asks of `api.bind`, which a valid document has as a string. -/
def prepareBind (doc : Json) : Except BindError Unit :=
  match getPath doc ["api", "bind"] with
  | some (.str bind) =>
    if bind = "" then .ok ()
    else do
      let (host, _) ← parseBind int bind.toList
      if !isLoopback host && !hasAuth doc && !isInsecure doc then throw (.exposed host)
  | _ => .ok ()

end Reading

/-- A loopback name, an IPv4 literal in 127.0.0.0/8, or an IPv6 literal of ::1. -/
def IsLoopbackHost (host : List Char) : Prop :=
  host.map Char.toLower ∈ ["localhost".toList, "ip6-localhost".toList] ∨
    (∃ addr, inetPton4 host = some addr ∧ addr.head? = some 127) ∨
    inetPton6 host = some (List.replicate 15 0 ++ [1])

/-- Nothing is taken off the host to judge it, and what begins like an address is one. -/
structure Plain (host : List Char) : Prop where
  bare : bareName host = host
  literal : "127.".toList <+: host → (inetPton4 host).isSome

/-- A character that stays when a host is stripped. -/
def Stays (c : Char) : Prop := isSpace c = false ∧ isBracket c = false

instance (c : Char) : Decidable (Stays c) :=
  inferInstanceAs (Decidable (isSpace c = false ∧ isBracket c = false))

theorem trim_of_forall {p : Char → Bool} {text : List Char} (h : ∀ c ∈ text, p c = false) :
    trim p text = text := by
  have hdrop : text.dropWhile p = text := by
    cases text with
    | nil => rfl
    | cons c rest => rw [List.dropWhile_cons_of_neg (by simp [h c List.mem_cons_self])]
  rw [trim, hdrop, List.rdropWhile_eq_self_iff]
  intro hne
  simp [h _ (List.getLast_mem hne)]

theorem bareName_of_forall {host : List Char} (h : ∀ c ∈ host, Stays c) : bareName host = host := by
  rw [bareName, trim_of_forall fun c hc => (h c hc).1, trim_of_forall fun c hc => (h c hc).2]

theorem isSpace_range {c : Char} (h : isSpace c = true) : c.toNat ≤ 32 ∨ 0x85 ≤ c.toNat := by
  simp only [isSpace, Bool.or_eq_true, Bool.and_eq_true, decide_eq_true_iff, List.mem_cons,
    List.not_mem_nil, or_false] at h
  omega

theorem stays_of_range {c : Char} (hlow : 32 < c.toNat) (hhigh : c.toNat < 0x85)
    (hopen : c.toNat ≠ 91) (hclose : c.toNat ≠ 93) : Stays c := by
  constructor
  · by_contra h
    rw [Bool.not_eq_false] at h
    have hrange := isSpace_range h
    omega
  · rw [isBracket, Bool.or_eq_false_iff, decide_eq_false_iff_not, decide_eq_false_iff_not]
    constructor
    · rintro rfl
      exact hopen rfl
    · rintro rfl
      exact hclose rfl

theorem stays_of_isDigit {c : Char} (h : c.isDigit = true) : Stays c := by
  simp only [Char.isDigit, Bool.and_eq_true, decide_eq_true_iff, UInt32.le_iff_toNat_le] at h
  have hlow : 48 ≤ c.toNat := h.1
  have hhigh : c.toNat ≤ 57 := h.2
  apply stays_of_range <;> omega

theorem stays_of_hexDigit? {c : Char} (h : (hexDigit? c).isSome) : Stays c := by
  rw [hexDigit?] at h
  split at h
  · exact stays_of_isDigit ‹_›
  · split at h
    · rename_i hc
      have hlow : 97 ≤ c.toNat := hc.1
      have hhigh : c.toNat ≤ 102 := hc.2
      apply stays_of_range <;> omega
    · split at h
      · rename_i hc
        have hlow : 65 ≤ c.toNat := hc.1
        have hhigh : c.toNat ≤ 70 := hc.2
        apply stays_of_range <;> omega
      · cases h

theorem stays_of_mem_splitOn {text : List Char} {sep : Char} (hsep : Stays sep)
    (h : ∀ w ∈ text.splitOn sep, ∀ c ∈ w, Stays c) : ∀ c ∈ text, Stays c := by
  intro c hc
  have hjoin : [sep].intercalate (text.splitOn sep) = text := List.intercalate_splitOn sep
  rw [← hjoin] at hc
  rcases mem_intercalate hc with rfl | ⟨w, hw, hin⟩
  · exact hsep
  · exact h w hw c hin

theorem stays_inetPton4 {text : List Char} {addr : Bytes} (h : inetPton4 text = some addr) :
    ∀ c ∈ text, Stays c := by
  simp only [inetPton4] at h
  split at h
  · apply stays_of_mem_splitOn (by decide : Stays '.')
    intro w hw c hc
    have hoctet := Mapped.isSome_of_mem h hw
    rw [octet?, decimal?] at hoctet
    split at hoctet
    · cases hoctet
    · rename_i hdecimal
      split at hdecimal
      · rename_i hdigits
        exact stays_of_isDigit (List.all_eq_true.mp hdigits.2 c hc)
      · cases hdecimal
  · cases h

theorem mapM_of_hexGroup? {text : List Char} {addr : Bytes} (h : hexGroup? text = some addr) :
    ∀ c ∈ text, (hexDigit? c).isSome := by
  rw [hexGroup?] at h
  split at h
  · rw [Option.map_eq_some_iff] at h
    obtain ⟨digits, hdigits, -⟩ := h
    exact fun c hc => Mapped.isSome_of_mem hdigits hc
  · cases h

theorem stays_hexGroups? {dotted : Bool} {groups : List (List Char)} {addr : Bytes}
    (h : hexGroups? dotted groups = some addr) : ∀ w ∈ groups, ∀ c ∈ w, Stays c := by
  have hgroup : ∀ {w : List Char} {addr : Bytes}, hexGroup? w = some addr → ∀ c ∈ w, Stays c :=
    fun hw c hc => stays_of_hexDigit? (mapM_of_hexGroup? hw c hc)
  induction groups generalizing addr with
  | nil => simp
  | cons w rest ih =>
    rw [List.forall_mem_cons]
    cases rest with
    | nil =>
      rw [hexGroups?] at h
      split at h
      · exact ⟨hgroup ‹_›, by simp⟩
      · split at h
        · exact ⟨stays_inetPton4 h, by simp⟩
        · cases h
    | cons v rest =>
      simp only [hexGroups?, Option.bind_eq_bind, Option.bind_eq_some_iff] at h
      obtain ⟨first, hfirst, others, hothers, -⟩ := h
      exact ⟨hgroup hfirst, ih hothers⟩

theorem stays_hexSide? {dotted : Bool} {text : List Char} {addr : Bytes}
    (h : hexSide? dotted text = some addr) : ∀ c ∈ text, Stays c := by
  rw [hexSide?] at h
  split at h
  · rename_i hnil
    simp [hnil]
  · exact stays_of_mem_splitOn (by decide) (stays_hexGroups? h)

theorem splitGap_eq_some {text before after : List Char}
    (h : splitGap text = some (before, after)) : text = before ++ ':' :: ':' :: after := by
  induction text generalizing before with
  | nil => cases h
  | cons c rest ih =>
    by_cases hgap : c = ':' ∧ rest.head? = some ':'
    · obtain ⟨rfl, hhead⟩ := hgap
      obtain ⟨rest, rfl⟩ := List.head?_eq_some_iff.mp hhead
      cases h
      rfl
    · rw [not_and_or] at hgap
      rw [splitGap_cons hgap, Option.map_eq_some_iff] at h
      obtain ⟨sides, hsides, heq⟩ := h
      cases heq
      rw [ih hsides, List.cons_append]

theorem stays_inetPton6 {text : List Char} {addr : Bytes} (h : inetPton6 text = some addr) :
    ∀ c ∈ text, Stays c := by
  rw [inetPton6] at h
  split at h
  · rw [Option.filter_eq_some_iff] at h
    exact stays_of_mem_splitOn (by decide) (stays_hexGroups? h.1)
  · rename_i before after hgap
    simp only [Option.bind_eq_bind, Option.bind_eq_some_iff] at h
    obtain ⟨head, hhead, tail, htail, -⟩ := h
    rw [splitGap_eq_some hgap]
    intro c hc
    rw [List.mem_append, List.mem_cons, List.mem_cons] at hc
    rcases hc with hc | rfl | rfl | hc
    · exact stays_hexSide? hhead c hc
    · decide
    · decide
    · exact stays_hexSide? htail c hc

/-- A quad among the groups of an address stands for all of them. -/
theorem length_hexGroups?_dot {dotted : Bool} {w : List Char} {rest : List (List Char)}
    {addr : Bytes} (hdot : '.' ∈ w) (h : hexGroups? dotted (w :: rest) = some addr) :
    dotted = true ∧ addr.length = 4 := by
  have hgroup : hexGroup? w = none := by
    by_contra hne
    obtain ⟨group, hgroup⟩ := Option.ne_none_iff_exists'.mp hne
    exact absurd (mapM_of_hexGroup? hgroup '.' hdot) (by decide)
  cases rest with
  | nil =>
    rw [hexGroups?, hgroup] at h
    dsimp only at h
    split at h
    · exact ⟨‹_›, length_inetPton4 h⟩
    · cases h
  | cons v rest => simp [hexGroups?, hgroup] at h

theorem splitOn_quad (t : List Char) :
    ∃ w rest, ('1' :: '2' :: '7' :: '.' :: t).splitOn ':' = w :: rest ∧ '.' ∈ w := by
  obtain ⟨w, rest, ht⟩ := List.exists_cons_of_ne_nil (List.splitOn_ne_nil ':' t)
  exact ⟨'1' :: '2' :: '7' :: '.' :: w, rest, by simp [List.splitOn_cons_eq_if_modifyHead, ht],
    by simp⟩

theorem inetPton6_quad (t : List Char) : inetPton6 ('1' :: '2' :: '7' :: '.' :: t) = none := by
  rw [Option.eq_none_iff_forall_ne_some]
  intro addr h
  rw [inetPton6] at h
  split at h
  · rw [Option.filter_eq_some_iff] at h
    obtain ⟨w, rest, hsplit, hdot⟩ := splitOn_quad t
    rw [hsplit] at h
    have hlen := (length_hexGroups?_dot hdot h.1).2
    have hsize := h.2
    rw [decide_eq_true_iff, hlen] at hsize
    exact absurd hsize (by decide)
  · rename_i before after hgap
    simp only [Option.bind_eq_bind, Option.bind_eq_some_iff] at h
    obtain ⟨head, hhead, -⟩ := h
    have hword := splitGap_word (w := ['1', '2', '7', '.']) (by decide) t
    rw [List.cons_append, List.cons_append, List.cons_append, List.singleton_append, hgap,
      eq_comm, Option.map_eq_some_iff] at hword
    obtain ⟨sides, -, hsides⟩ := hword
    cases hsides
    obtain ⟨w, rest, hsplit, hdot⟩ := splitOn_quad sides.1
    rw [List.cons_append, List.cons_append, List.cons_append, List.singleton_append] at hhead
    rw [hexSide?, if_neg (List.cons_ne_nil _ _), hsplit] at hhead
    exact absurd (length_hexGroups?_dot hdot hhead).1 (by decide)

theorem toLower_range {c : Char} (h : c.toLower ≠ c) : 65 ≤ c.toNat ∧ c.toNat ≤ 90 := by
  delta Char.toLower at h
  split at h
  · rename_i hrange
    exact ⟨hrange.1, hrange.2⟩
  · exact absurd rfl h

/-- A character that is not a small letter is in lower case only itself. -/
theorem eq_of_toLower {c d : Char} (h : c.toLower = d) (hd : ¬d.isLower) : c = d := by
  by_contra hne
  have hrange := toLower_range (c := c) fun heq => hne (heq.symm.trans h)
  rw [← h] at hd
  delta Char.toLower at hd
  rw [dif_pos ⟨hrange.1, hrange.2⟩] at hd
  apply hd
  have hlow : 65 ≤ c.toNat := hrange.1
  have hhigh : c.toNat ≤ 90 := hrange.2
  delta Char.isLower
  simp only [Bool.and_eq_true, decide_eq_true_iff, UInt32.le_iff_toNat_le]
  have hval : (c.val + ('a'.val - 'A'.val)).toNat = c.toNat + 32 := by
    rw [UInt32.toNat_add]
    change (c.toNat + 32) % 2 ^ 32 = c.toNat + 32
    omega
  rw [hval]
  exact ⟨by change 97 ≤ _; omega, by change _ ≤ 122; omega⟩

theorem eq_of_map_toLower {text name : List Char} (h : text.map Char.toLower = name)
    (hname : name.all (fun d => !d.isLower) = true) : text = name := by
  subst h
  induction text with
  | nil => rfl
  | cons c rest ih =>
    rw [List.map_cons, List.all_cons, Bool.and_eq_true, Bool.not_eq_true'] at hname
    have hhead := eq_of_toLower rfl (Bool.eq_false_iff.mp hname.1)
    have htail := ih hname.2
    rw [List.map_cons, ← hhead, ← htail]

theorem stays_of_toLower {c : Char} (h : Stays c.toLower) : Stays c := by
  by_cases heq : c.toLower = c
  · rwa [heq] at h
  · have hrange := toLower_range heq
    apply stays_of_range <;> omega

theorem stays_of_map_toLower {host name : List Char} (h : host.map Char.toLower = name)
    (hname : name.all (fun c => decide (Stays c)) = true) : ∀ c ∈ host, Stays c := by
  intro c hc
  have hmem : c.toLower ∈ name := h ▸ List.mem_map_of_mem hc
  exact stays_of_toLower (of_decide_eq_true (List.all_eq_true.mp hname _ hmem))

theorem prefix_of_map_toLower {text : List Char}
    (h : "127.".toList <+: text.map Char.toLower) : "127.".toList <+: text := by
  obtain ⟨rest, hrest⟩ := h
  obtain ⟨start, tail, rfl, hstart, -⟩ := List.map_eq_append_iff.mp hrest.symm
  rw [eq_of_map_toLower hstart (by decide)]
  exact List.prefix_append _ tail

theorem head?_inetPton4 {text : List Char} {addr : Bytes} (hquad : "127.".toList <+: text)
    (h : inetPton4 text = some addr) : addr.head? = some 127 := by
  obtain ⟨rest, rfl⟩ := hquad
  have hdot : '.' ∉ ['1', '2', '7'] := by decide
  have hsplit : ("127.".toList ++ rest).splitOn '.' = ['1', '2', '7'] :: rest.splitOn '.' :=
    List.splitOn_append_cons_self_of_not_mem hdot rest
  simp only [inetPton4, hsplit] at h
  split at h
  · cases Mapped.mapM_eq_some_iff.mp h with
    | @cons _ octet _ _ hoctet _ =>
      have hval : octet? ['1', '2', '7'] = some 127 := by decide
      rw [hval] at hoctet
      rw [List.head?_cons, hoctet]
  · cases h

/-- A plain host that passes for loopback is loopback. -/
theorem isLoopbackHost_of_plain {host : List Char} (hplain : Plain host)
    (h : isLoopback host = true) : IsLoopbackHost host := by
  simp only [isLoopback, hplain.bare, Bool.or_eq_true, decide_eq_true_iff,
    List.isPrefixOf_iff_prefix] at h
  rcases h with hname | hquad
  · rw [List.mem_cons, List.mem_cons, List.mem_cons, List.mem_singleton] at hname
    rcases hname with hname | hname | hname | hname
    · exact Or.inl (by simp [hname])
    · exact Or.inl (by simp [hname])
    · rw [eq_of_map_toLower hname (by decide)]
      exact Or.inr (Or.inr (by decide +kernel))
    · rw [eq_of_map_toLower hname (by decide)]
      exact Or.inr (Or.inr (by decide +kernel))
  · have hprefix := prefix_of_map_toLower hquad
    obtain ⟨addr, haddr⟩ := Option.isSome_iff_exists.mp (hplain.literal hprefix)
    exact Or.inr (Or.inl ⟨addr, haddr, head?_inetPton4 hprefix haddr⟩)

/-- Loopback hosts are plain. -/
theorem IsLoopbackHost.plain {host : List Char} (h : IsLoopbackHost host) : Plain host := by
  rcases h with hname | ⟨addr, haddr, -⟩ | haddr
  · have hstays : ∀ c ∈ host, Stays c := by
      rw [List.mem_cons, List.mem_singleton] at hname
      rcases hname with hname | hname
      · exact stays_of_map_toLower hname (by decide)
      · exact stays_of_map_toLower hname (by decide)
    refine ⟨bareName_of_forall hstays, ?_⟩
    rintro ⟨rest, rfl⟩
    rw [List.map_append, List.mem_cons, List.mem_singleton] at hname
    rcases hname with hname | hname
    · cases hname
    · cases hname
  · exact ⟨bareName_of_forall (stays_inetPton4 haddr), fun _ => by rw [haddr]; rfl⟩
  · refine ⟨bareName_of_forall (stays_inetPton6 haddr), ?_⟩
    rintro ⟨rest, rfl⟩
    exact absurd (haddr.symm.trans (inetPton6_quad rest)) nofun

theorem isLoopbackHost_default : IsLoopbackHost "127.0.0.1".toList :=
  Or.inr (Or.inl ⟨[127, 0, 0, 1], by decide +kernel, rfl⟩)

/-- The host part of a bind string: what stands in the brackets, or before its only colon. -/
def hostText (bind : List Char) : List Char :=
  ((splitBind (trim isSpace bind)).map Prod.fst).getD []

section Reading

variable {int : List Char → Option Int}

theorem parseBind_eq_ok {bind host : List Char} {port : Int}
    (h : parseBind int bind = .ok (host, port)) :
    host = if hostText bind = [] then "127.0.0.1".toList else hostText bind := by
  rw [parseBind] at h
  split at h
  · cases h
  · rename_i text port hsplit
    split at h
    · cases h
    · split at h
      · cases h
        rw [hostText, hsplit, Option.map_some, Option.getD_some]
      · cases h

/-- The document names no credential and does not ask to go without. -/
structure Unauthenticated (doc : Json) : Prop where
  auth : hasAuth doc = false
  insecure : isInsecure doc = false

theorem isLoopback_of_prepareBind {doc : Json} {bind : String} {host : List Char} {port : Int}
    (hdoc : Unauthenticated doc) (hbind : getPath doc ["api", "bind"] = some (.str bind))
    (hne : bind ≠ "") (haccept : prepareBind int doc = .ok ())
    (h : parseBind int bind.toList = .ok (host, port)) : isLoopback host = true := by
  simp only [prepareBind, hbind, if_neg hne, h, hdoc.auth, hdoc.insecure] at haccept
  by_contra hnot
  rw [Bool.not_eq_true] at hnot
  change (if (!isLoopback host && !false && !false) = true then _ else _) = _ at haccept
  rw [hnot] at haccept
  cases haccept

/-- An API that nothing authenticates is on loopback exactly when the host of its bind is
plain. -/
theorem isLoopbackHost_iff {doc : Json} {bind : String} {host : List Char} {port : Int}
    (hdoc : Unauthenticated doc) (hbind : getPath doc ["api", "bind"] = some (.str bind))
    (haccept : prepareBind int doc = .ok ()) (h : parseBind int bind.toList = .ok (host, port)) :
    IsLoopbackHost host ↔ Plain (hostText bind.toList) := by
  have hhost := parseBind_eq_ok h
  by_cases hempty : hostText bind.toList = []
  · rw [if_pos hempty] at hhost
    subst hhost
    have hplain : Plain [] := ⟨rfl, fun hprefix => absurd hprefix (by decide)⟩
    rw [hempty]
    exact ⟨fun _ => hplain, fun _ => isLoopbackHost_default⟩
  · rw [if_neg hempty] at hhost
    subst hhost
    have hne : bind ≠ "" := by
      rintro rfl
      exact hempty (by decide)
    have hloop := isLoopback_of_prepareBind hdoc hbind hne haccept h
    exact ⟨IsLoopbackHost.plain, fun hplain => isLoopbackHost_of_plain hplain hloop⟩

end Reading

def exposedDoc : Json := .dict [("api", .dict [("bind", .str "127.example.com:8179")])]

/-- What `int` makes of decimal digits. -/
def readDigits (text : List Char) : Option Int := (decimal? text).map Int.ofNat

theorem isLoopbackHost_iff_exposedDoc :
    IsLoopbackHost "127.example.com".toList ↔ Plain (hostText "127.example.com:8179".toList) :=
  @isLoopbackHost_iff readDigits exposedDoc "127.example.com:8179" _ 8179 ⟨rfl, rfl⟩ rfl
    (by decide +kernel) (by decide +kernel)

theorem not_isLoopbackHost :
    ¬∀ (int : List Char → Option Int) (doc : Json) (bind : String) (host : List Char)
      (port : Int), Unauthenticated doc → getPath doc ["api", "bind"] = some (.str bind) →
      prepareBind int doc = .ok () → parseBind int bind.toList = .ok (host, port) →
      IsLoopbackHost host := by
  intro h
  have hhost := h readDigits exposedDoc "127.example.com:8179" "127.example.com".toList 8179
    ⟨rfl, rfl⟩ rfl (by decide +kernel) (by decide +kernel)
  have hquad := hhost.plain.literal (by decide)
  revert hquad
  decide +kernel

end Packets
