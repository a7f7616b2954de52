/-
A route-map clause as it is shown (`policy/routemap.py`), typed back.

A condition is shown as it is configured and is accepted again; the edits are shown in the
form the protocol translators take, under keys a clause may not.
-/
import Packets.Bgp.RouteMapDecides
import Packets.Rib.AddressText
import Packets.Policy.Readers

namespace Packets

/-- `ORIGIN_NAMES`; there is no other id. -/
def originName : Nat → String
  | 0 => "igp"
  | 1 => "egp"
  | _ => "incomplete"

/-- `_COMMUNITY_TEXT`. -/
def communityName (value : Nat) : Option String :=
  if value = 0x00000000 then some "internet"
  else if value = 0xffffff01 then some "no-export"
  else if value = 0xffffff02 then some "no-advertise"
  else if value = 0xffffff03 then some "no-export-subconfed"
  else none

/-- `community_text`. -/
def communityText (value : Nat) : String :=
  match communityName value with
  | some known => known
  | none => toString (value / 65536 % 65536) ++ ":" ++ toString (value % 65536)

/-- `large_community_text`. -/
def largeCommunityText (value : LargeCommunity) : String :=
  toString value.1 ++ ":" ++ toString value.2.1 ++ ":" ++ toString value.2.2

/-- `_addr_text`. -/
def addrText (packed : Bytes) : String :=
  if packed.length = 4 then inetNtop4 packed else inetNtop6 packed

/-- `ACTION_NAMES`. -/
def Action.text : Action → String
  | .deny => "deny"
  | .permit => "permit"

def texts (items : List String) : Json := .list (items.map .str)

/-- What the community matchers render: a bare list, or one with `exact-match`. -/
def communityConfig (items : List String) (exact : Bool) : Json :=
  if exact then .dict [("list", texts items), ("exact-match", .bool true)] else texts items

/-- `as_config`: the keyword and value of a condition.  `single`: one regex was written, and not
a list. -/
def Match.asConfig (single : Bool) : Match → String × Json
  | .origin code => ("origin", .str (originName code))
  | .metric med => ("metric", .int med)
  | .localPref pref => ("local-preference", .int pref)
  | .nextHop addr => ("next-hop", .str (addrText addr))
  | .prefixList afi name =>
    (if afi = AFI_IP then "ip" else "ipv6", .dict [("address", .dict [("prefix-list", .str name)])])
  | .asPathRegex patterns =>
    ("as-path", if single then .str (patterns.headD "") else texts patterns)
  | .asPathList name => ("as-path", .dict [("access-list", .str name)])
  | .community values exact => ("community", communityConfig (values.map communityText) exact)
  | .largeCommunity values exact =>
    ("large-community", communityConfig (values.map largeCommunityText) exact)

/-- The `match` of `as_dict`. -/
def matchAsDict (single : Bool) (tests : List Match) : Json :=
  .dict (tests.foldl (fun shown test =>
    shown.set (test.asConfig single).1 (test.asConfig single).2) Dict.empty).entries

def CommunityMode.text : CommunityMode → String
  | .set => "set"
  | .add => "add"
  | .none => "none"

/-- What an edit of communities is rendered as. -/
def communityEditAsDict (mode : CommunityMode) (items : List String) : Json :=
  .dict [("action", .str mode.text), ("values", texts items)]

/-- One edit of a clause, under its normalized key. -/
def editField {α : Type} (key : String) (render : α → Json) (edit : Option α) :
    List (String × Json) :=
  (edit.map fun value => (key, render value)).toList

/-- `_edits_as_dict`. -/
def editsAsDict (edits : Edits) (weight : Option Nat) : Json :=
  .dict (editField "as-path-prepend" (fun asns : List Nat => .list (asns.map fun n => .int n))
      edits.asPathPrepend ++
    (editField "community" (fun edit => communityEditAsDict edit.1 (edit.2.map communityText))
      edits.community ++
    (editField "large-community"
      (fun edit => communityEditAsDict edit.1 (edit.2.map largeCommunityText))
      edits.largeCommunity ++
    (editField "local-preference" (fun n : Nat => .int n) edits.localPref ++
    (editField "metric" (fun n : Nat => .int n) edits.metric ++
    (editField "next-hop" (fun addr => .str (addrText addr)) edits.nexthop ++
    (editField "origin" (fun code => .str (originName code)) edits.origin ++
    editField "weight" (fun n : Nat => .int n) weight)))))))

/-- A clause with the `_single` of its match on regexes, which only show output reads. -/
structure CompiledClause where
  clause : RouteMapClause
  single : Bool
deriving DecidableEq

/-- Whether the match on paths is written as one text. -/
def singleRegex (matchSpec : Json) : Bool := ((matchSpec.get? "as-path").bind Json.str?).isSome

namespace CompiledClause

/-- The constructor of a clause; `none` is its `ValueError`. -/
def new (rx : RegexEngine) (seq action matchSpec setSpec : Json) : Option CompiledClause :=
  (RouteMapClause.new rx seq action matchSpec setSpec).map fun clause =>
    ⟨clause, singleRegex matchSpec⟩

/-- `as_dict`, without the hit counter. -/
def asDict (c : CompiledClause) : Json :=
  .dict [("seq", .int c.clause.seq), ("action", .str c.clause.action.text),
    ("match", matchAsDict c.single c.clause.tests),
    ("set", editsAsDict c.clause.edits c.clause.weight)]

/-- A clause built from what is shown. -/
def retype (rx : RegexEngine) (shown : Json) : Option CompiledClause := do
  new rx (← shown.get? "seq") (← shown.get? "action") (← shown.get? "match") (← shown.get? "set")

/-- What is shown is accepted, and means what the clause means. -/
def TypesBack (rx : RegexEngine) (c : CompiledClause) : Prop :=
  ∃ c', retype rx c.asDict = some c' ∧ c'.clause.tests = c.clause.tests ∧
    c'.clause.edits = c.clause.edits ∧ c'.clause.weight = c.clause.weight

end CompiledClause

theorem toList_toString (n : Nat) : (toString n).toList = Nat.toDigits 10 n := Nat.toList_repr

theorem splitOn_numbers {numbers : List Nat} (h : numbers ≠ []) :
    ([':'].intercalate (numbers.map (Nat.toDigits 10))).splitOn ':' =
      numbers.map (Nat.toDigits 10) := by
  apply List.splitOn_intercalate ':'
  · intro word hword hcolon
    obtain ⟨n, -, rfl⟩ := List.mem_map.mp hword
    have hdigit := Nat.isDigit_of_mem_toDigits (by decide) (by decide) hcolon
    exact absurd hdigit (by decide)
  · exact fun hnil => h (List.map_eq_nil_iff.mp hnil)

theorem wellKnownCommunity_of_colon {text : String} (h : ':' ∈ text.toList) :
    wellKnownCommunity text = none := by
  rw [wellKnownCommunity.eq_def]
  split
  · exact absurd h (by decide)
  · exact absurd h (by decide)
  · exact absurd h (by decide)
  · exact absurd h (by decide)
  · exact absurd h (by decide)
  · rfl

theorem communityValue_communityText {value : Nat} (h : value < 256 ^ 4) :
    communityValue (.str (communityText value)) = some value := by
  rw [communityText]
  cases hname : communityName value with
  | some known =>
    rw [communityName] at hname
    split_ifs at hname with h0 h1 h2 h3
    · obtain rfl := Option.some.inj hname
      rw [h0]
      rfl
    · obtain rfl := Option.some.inj hname
      rw [h1]
      rfl
    · obtain rfl := Option.some.inj hname
      rw [h2]
      rfl
    · obtain rfl := Option.some.inj hname
      rw [h3]
      rfl
  | none =>
    dsimp only
    have htext : (toString (value / 65536 % 65536) ++ ":" ++
        toString (value % 65536)).toList =
          [':'].intercalate ([value / 65536 % 65536, value % 65536].map (Nat.toDigits 10)) := by
      rw [String.toList_append, String.toList_append, toList_toString, toList_toString]
      simp
    have hcolon : ':' ∈ (toString (value / 65536 % 65536) ++ ":" ++
        toString (value % 65536)).toList := by
      rw [String.toList_append, String.toList_append]
      simp
    rw [communityValue, wellKnownCommunity_of_colon hcolon, htext, splitOn_numbers (by simp)]
    have hhigh : value / 65536 % 65536 ≤ 0xffff := by omega
    have hlow : value % 65536 ≤ 0xffff := by omega
    have hwhole : value / 65536 % 65536 * 65536 + value % 65536 = value := by omega
    simp [decimal?_toDigits, hhigh, hlow, hwhole]

theorem largeCommunityValue_largeCommunityText {value : LargeCommunity} (h : LargeFits value) :
    largeCommunityValue (.str (largeCommunityText value)) = some value := by
  obtain ⟨a, b, c⟩ := value
  obtain ⟨ha, hb, hc⟩ := h
  have htext : (largeCommunityText (a, b, c)).toList =
      [':'].intercalate ([a, b, c].map (Nat.toDigits 10)) := by
    rw [largeCommunityText]
    simp only [String.toList_append, toList_toString]
    simp
  rw [largeCommunityValue, htext, splitOn_numbers (by simp)]
  have ha' : a ≤ 0xffffffff := by simp only at ha; omega
  have hb' : b ≤ 0xffffffff := by simp only at hb; omega
  have hc' : c ≤ 0xffffffff := by simp only at hc; omega
  simp [decimal?_toDigits, ha', hb', hc']

theorem mapM_texts {α : Type} {read : Json → Option α} {render : α → String} {values : List α}
    (h : ∀ v ∈ values, read (.str (render v)) = some v) :
    ((values.map render).map Json.str).mapM read = some values := by
  rw [List.map_map, List.mapM_map]
  have hall := CommutingMonad.mapM_of_pure (m := Option) (g := id) h
  rwa [List.map_id] at hall

theorem communityValues_texts {values : List Nat} (hne : values ≠ [])
    (hfits : ∀ v ∈ values, v < 256 ^ 4) (hform : values = Ascending.form (· ≤ ·) values) :
    communityValues (texts (values.map communityText)) = some values := by
  have hread := mapM_texts fun v hv => communityValue_communityText (hfits v hv)
  obtain ⟨value, rest, rfl⟩ := List.exists_cons_of_ne_nil hne
  rw [communityValues, texts, Json.items?]
  simp only [List.map_cons] at hread ⊢
  rw [hread, Option.map_some]
  exact congrArg some hform.symm

theorem largeCommunityValues_texts {values : List LargeCommunity} (hne : values ≠ [])
    (hfits : ∀ t ∈ values, LargeFits t)
    (hform : values = Ascending.form (fun x y => largeLe x y = true) values) :
    largeCommunityValues (texts (values.map largeCommunityText)) = some values := by
  have hread := mapM_texts fun t ht => largeCommunityValue_largeCommunityText (hfits t ht)
  obtain ⟨value, rest, rfl⟩ := List.exists_cons_of_ne_nil hne
  rw [largeCommunityValues, texts, Json.items?]
  simp only [List.map_cons] at hread ⊢
  rw [hread, Option.map_some]
  exact congrArg some hform.symm

theorem packAddr_addrText {text : String} {addr : Bytes} (h : packAddr text = some addr) :
    packAddr (addrText addr) = some addr := by
  have hlength : addr.length = 4 ∨ addr.length = 16 := by
    rw [packAddr] at h
    split at h
    · exact Or.inr (length_inetPton6 h)
    · exact Or.inl (length_inetPton4 h)
  rcases hlength with hfour | hsixteen
  · rw [addrText, if_pos hfour, packAddr, if_neg (colon_notMem_inetNtop4 addr),
      inetPton4_inetNtop4 hfour]
  · have hne : addr.length ≠ 4 := by omega
    rw [addrText, if_neg hne, packAddr, if_pos (colon_mem_inetNtop6 hsixteen),
      inetPton6_inetNtop6 hsixteen]

theorem originId_originName {code : Nat} (h : code ≤ 2) :
    originId (.str (originName code)) = some code := by
  have hall : ∀ code ≤ 2, originId (.str (originName code)) = some code := by decide
  exact hall code h

theorem intIn?_nat {low high : Int} {n : Nat} (hlow : low ≤ n) (hhigh : (n : Int) ≤ high) :
    (Json.int n).intIn? low high = some n := by
  rw [Json.intIn?, Json.int?]
  dsimp only
  rw [if_pos ⟨hlow, hhigh⟩, Int.toNat_natCast]

theorem intIn?_self {low high : Int} {value : Json} {n : Nat} (h : value.intIn? low high = some n)
    (hlow : 0 ≤ low) : (Json.int n).intIn? low high = some n := by
  obtain ⟨hle, hhigh⟩ := intIn?_le h hlow
  exact intIn?_nat hle hhigh

variable {rx : RegexEngine}

theorem name?_self {j : Json} {name : String} (h : name? j = some name) :
    name? (.str name) = some name := by
  obtain ⟨-, hne⟩ := Option.filter_eq_some_iff.mp h
  exact Option.filter_eq_some_iff.mpr ⟨rfl, hne⟩

theorem parseCommunityMatch_communityConfig {α : Type} {parseValues : Json → Option (List α)}
    {factory : List α → Bool → Match} {render : α → String} {values : List α}
    (h : parseValues (texts (values.map render)) = some values) (exact : Bool) :
    parseCommunityMatch parseValues factory (communityConfig (values.map render) exact) =
      some (factory values exact) := by
  cases exact with
  | false =>
    rw [communityConfig, if_neg (by decide), parseCommunityMatch, if_neg (by simp [texts,
      Json.isDict]), h, Option.map_some]
  | true =>
    rw [communityConfig, if_pos rfl, parseCommunityMatch]
    simp [Json.isDict, Json.keysAmong, Json.keys, Json.get?, List.lookup_cons, Json.bool?, h]

theorem parsePrefixListMatch_shown {afi afi' : Nat} {value : Json} {test : Match}
    (h : parsePrefixListMatch afi value = some test) :
    ∃ name, test = .prefixList afi name ∧ parsePrefixListMatch afi'
      (.dict [("address", .dict [("prefix-list", .str name)])]) = some (.prefixList afi' name) := by
  simp only [parsePrefixListMatch, Option.bind_eq_bind, Option.ite_none_left_eq_some,
    Option.bind_eq_some_iff, Option.some.injEq] at h
  obtain ⟨-, inner, -, -, field, -, name, hname, rfl⟩ := h
  refine ⟨name, rfl, ?_⟩
  simp [parsePrefixListMatch, Json.isDict, Json.keysAmong, Json.keys, Json.get?, name?_self hname]

theorem asPathPattern_self {j : Json} {pattern : String} (h : asPathPattern rx j = some pattern) :
    asPathPattern rx (.str pattern) = some pattern := by
  rw [asPathPattern] at h
  split at h
  · rw [Option.ite_none_right_eq_some] at h
    obtain ⟨hcompiles, rfl⟩ := And.imp_right Option.some.inj h
    rw [asPathPattern, Json.str?]
    exact if_pos hcompiles
  · cases h

theorem parseAsPathMatch_shown {value : Json} {test : Match}
    (h : parseAsPathMatch rx value = some test) :
    (test.asConfig value.str?.isSome).1 = "as-path" ∧
      parseAsPathMatch rx (test.asConfig value.str?.isSome).2 = some test := by
  rcases parseAsPathMatch_shape h with
    ⟨hdict, inner, hinner, name, hname, rfl⟩ | ⟨text, pattern, rfl, hpattern, rfl⟩ |
      ⟨item, rest, patterns, rfl, hpatterns, rfl⟩
  · refine ⟨rfl, ?_⟩
    simp [Match.asConfig, parseAsPathMatch, Json.keysAmong, Json.keys, Json.get?, name?_self hname]
  · refine ⟨rfl, ?_⟩
    rw [Match.asConfig]
    simp only [Json.str?, Option.isSome_some, if_pos, List.headD_cons, parseAsPathMatch,
      asPathPattern_self hpattern, Option.map_some]
  · refine ⟨rfl, ?_⟩
    have hread : (patterns.map Json.str).mapM (asPathPattern rx) = some patterns := by
      rw [List.mapM_map]
      have hall := CommutingMonad.mapM_of_pure (m := Option) (g := id) (l := patterns)
        (f := fun pattern => asPathPattern rx (.str pattern))
        (Mapped.forall_mem_right (fun _ _ => asPathPattern_self) hpatterns)
      rwa [List.map_id] at hall
    obtain ⟨pattern, more, rfl⟩ := List.exists_cons_of_ne_nil (Mapped.ne_nil hpatterns)
    rw [Match.asConfig]
    simp only [Json.str?, Option.isSome_none, Bool.false_eq_true, if_false, texts,
      List.map_cons, parseAsPathMatch] at hread ⊢
    rw [hread, Option.map_some]

/-- A condition is shown under its keyword, as a value that is read back as the condition. -/
theorem parseMatchKey_asConfig {key : String} {value : Json} {test : Match} {single : Bool}
    (h : parseMatchKey rx key value = some test)
    (hsingle : key = "as-path" → single = value.str?.isSome) :
    (test.asConfig single).1 = key ∧ parseMatchKey rx key (test.asConfig single).2 = some test := by
  have hparsed := parseMatchKey_parsed h
  rw [parseMatchKey.eq_def] at h
  split at h
  · obtain ⟨name, rfl, hread⟩ := @parsePrefixListMatch_shown AFI_IP AFI_IP value test h
    exact ⟨rfl, hread⟩
  · obtain ⟨name, rfl, hread⟩ := @parsePrefixListMatch_shown AFI_IP6 AFI_IP6 value test h
    exact ⟨rfl, hread⟩
  · rw [hsingle rfl]
    exact parseAsPathMatch_shown h
  · obtain ⟨items, values, exact, -, rfl⟩ := parseCommunityMatch_cases h
    obtain ⟨hne, hfits, hform⟩ := hparsed
    exact ⟨rfl, parseCommunityMatch_communityConfig (communityValues_texts hne hfits hform) exact⟩
  · obtain ⟨items, values, exact, -, rfl⟩ := parseCommunityMatch_cases h
    obtain ⟨hne, hfits, hform⟩ := hparsed
    exact ⟨rfl, parseCommunityMatch_communityConfig
      (largeCommunityValues_texts hne hfits hform) exact⟩
  · obtain ⟨n, hn, rfl⟩ := Option.map_eq_some_iff.mp h
    refine ⟨rfl, ?_⟩
    rw [parseMatchKey, Match.asConfig, intIn?_self hn (by decide), Option.map_some]
  · obtain ⟨n, hn, rfl⟩ := Option.map_eq_some_iff.mp h
    refine ⟨rfl, ?_⟩
    rw [parseMatchKey, Match.asConfig, intIn?_self hn (by decide), Option.map_some]
  · obtain ⟨code, hcode, rfl⟩ := Option.map_eq_some_iff.mp h
    refine ⟨rfl, ?_⟩
    rw [parseMatchKey, Match.asConfig, originId_originName (originId_le hcode), Option.map_some]
  · obtain ⟨addr, haddr, rfl⟩ := Option.map_eq_some_iff.mp h
    obtain ⟨text, -, haddr⟩ := Option.bind_eq_some_iff.mp haddr
    refine ⟨rfl, ?_⟩
    rw [parseMatchKey, Match.asConfig]
    dsimp only
    rw [Json.str?, Option.bind_some, packAddr_addrText haddr, Option.map_some]
  · cases h

/-- Entries of different keys filed one after the other. -/
theorem get?_foldl_set {ι : Type} (entry : ι → String × Json) (l : List ι)
    (h : (l.map fun x => (entry x).1).Nodup) (d : Dict String Json) :
    (∀ x ∈ l, (l.foldl (fun d x => d.set (entry x).1 (entry x).2) d).get? (entry x).1 =
        some (entry x).2) ∧
      ∀ key ∉ l.map fun x => (entry x).1,
        (l.foldl (fun d x => d.set (entry x).1 (entry x).2) d).get? key = d.get? key := by
  induction l generalizing d with
  | nil => exact ⟨fun _ hx => absurd hx List.not_mem_nil, fun _ _ => rfl⟩
  | cons x l ih =>
    rw [List.map_cons, List.nodup_cons] at h
    obtain ⟨hhere, helsewhere⟩ := ih h.2 (d.set (entry x).1 (entry x).2)
    constructor
    · intro y hy
      rw [List.foldl_cons]
      rcases List.mem_cons.mp hy with rfl | hy
      · rw [helsewhere _ h.1, Dict.get?_set, if_pos rfl]
      · exact hhere y hy
    · intro key hkey
      rw [List.map_cons, List.mem_cons, not_or] at hkey
      rw [List.foldl_cons, helsewhere key hkey.2, Dict.get?_set, if_neg hkey.1]

theorem get?_entries (d : Dict String Json) (key : String) :
    (Json.dict d.entries).get? key = d.get? key := by
  rw [Json.get?, Dict.get?]
  induction d.entries with
  | nil => rfl
  | cons e rest ih =>
    rw [List.lookup_cons, Dict.getEntries, ih]
    by_cases hkey : e.1 = key
    · rw [if_pos hkey, hkey, beq_self_eq_true]
    · rw [if_neg hkey, beq_eq_false_iff_ne.mpr (Ne.symm hkey)]

theorem sortedKeys_nodup {j : Json} (h : j.keys.Nodup) : j.sortedKeys.Nodup :=
  (List.perm_insertionSort _ _).nodup_iff.mpr h

theorem sortedKeys_congr {j j' : Json} (h : j.keys.Nodup) (h' : j'.keys.Nodup)
    (hmem : ∀ key, key ∈ j.keys ↔ key ∈ j'.keys) : j.sortedKeys = j'.sortedKeys := by
  have hform := Ascending.form_congr (· ≤ ·) hmem
  rwa [Ascending.form, Ascending.form, h.dedup, h'.dedup] at hform

/-- The object that shows conditions of different keywords. -/
theorem matchAsDict_shows {single : Bool} {tests : List Match}
    (h : (tests.map fun test => (test.asConfig single).1).Nodup) :
    (∀ test ∈ tests, (matchAsDict single tests).get? (test.asConfig single).1 =
        some (test.asConfig single).2) ∧
      (matchAsDict single tests).keys.Nodup ∧
      ∀ key, key ∈ (matchAsDict single tests).keys ↔
        key ∈ tests.map fun test => (test.asConfig single).1 := by
  obtain ⟨hhere, helsewhere⟩ := get?_foldl_set (Match.asConfig single) tests h Dict.empty
  rw [matchAsDict]
  generalize tests.foldl (fun shown test =>
    shown.set (test.asConfig single).1 (test.asConfig single).2) Dict.empty = shown
    at hhere helsewhere ⊢
  refine ⟨?_, shown.nodup, ?_⟩
  · intro test htest
    rw [get?_entries]
    exact hhere test htest
  · intro key
    change key ∈ shown.keys ↔ _
    rw [Dict.mem_keys_iff]
    constructor
    · rintro ⟨value, hvalue⟩
      by_contra hnot
      rw [helsewhere key hnot] at hvalue
      cases hvalue
    · intro hmem
      obtain ⟨test, htest, rfl⟩ := List.mem_map.mp hmem
      exact ⟨_, hhere test htest⟩

theorem asConfig_of_read {spec : Json} {key : String} {test : Match}
    (h : (spec.get? key).bind (parseMatchKey rx key) = some test) :
    (test.asConfig (singleRegex spec)).1 = key ∧
      parseMatchKey rx key (test.asConfig (singleRegex spec)).2 = some test := by
  obtain ⟨value, hvalue, hread⟩ := Option.bind_eq_some_iff.mp h
  apply parseMatchKey_asConfig hread
  rintro rfl
  rw [singleRegex, hvalue, Option.bind_some]

theorem names_of_read {spec : Json} {keys : List String} {parsed : List Match}
    (h : (keys.mapM fun key => (spec.get? key).bind (parseMatchKey rx key)) = some parsed) :
    parsed.map (fun test => (test.asConfig (singleRegex spec)).1) = keys := by
  have hread := Mapped.mapM_eq_some_iff.mp h
  clear h
  induction hread with
  | nil => rfl
  | cons htest _ ih => rw [List.map_cons, (asConfig_of_read htest).1, ih]

/-- The conditions shown are those of the clause, the cheapest first. -/
theorem parseMatch_matchAsDict {spec : Json} {tests : List Match} (hkeys : spec.keys.Nodup)
    (h : parseMatch rx spec = some tests) :
    parseMatch rx (matchAsDict (singleRegex spec) tests) = some tests := by
  rw [parseMatch.eq_def] at h
  split at h
  · rw [← Option.some.inj h]
    rfl
  · rw [Option.ite_none_left_eq_some] at h
    obtain ⟨parsed, hparsed, rfl⟩ := Option.map_eq_some_iff.mp h.2
    have hnames := names_of_read hparsed
    generalize htests : parsed.insertionSort (fun x y => x.cost ≤ y.cost) = tests
    have hperm : tests.Perm parsed := htests ▸ List.perm_insertionSort _ parsed
    have hnodup : (tests.map fun test => (test.asConfig (singleRegex spec)).1).Nodup := by
      rw [(hperm.map _).nodup_iff, hnames]
      exact sortedKeys_nodup hkeys
    obtain ⟨hshown, hshownKeys, hmem⟩ := matchAsDict_shows hnodup
    have hsorted : (matchAsDict (singleRegex spec) tests).sortedKeys = spec.sortedKeys := by
      apply sortedKeys_congr hshownKeys hkeys
      intro key
      rw [hmem, (hperm.map _).mem_iff, hnames, Json.sortedKeys, List.mem_insertionSort]
    have hread : (spec.sortedKeys.mapM fun key =>
        ((matchAsDict (singleRegex spec) tests).get? key).bind (parseMatchKey rx key)) =
          some parsed := by
      have hall : ∀ test ∈ parsed,
          ((matchAsDict (singleRegex spec) tests).get? (test.asConfig (singleRegex spec)).1).bind
            (parseMatchKey rx (test.asConfig (singleRegex spec)).1) = some test := by
        intro test htest
        obtain ⟨key, -, hkey⟩ := Mapped.exists_of_mem_right hparsed htest
        obtain ⟨hname, hback⟩ := asConfig_of_read hkey
        rw [hshown test (hperm.mem_iff.mpr htest), Option.bind_some, hname]
        exact hback
      have hmap := CommutingMonad.mapM_of_pure (m := Option) (g := id) hall
      rw [List.map_id] at hmap
      rw [← hnames, List.mapM_map]
      exact hmap
    rw [parseMatch.eq_def]
    split
    · rename_i hnull
      rw [matchAsDict] at hnull
      cases hnull
    · rw [hsorted, hread, Option.map_some, htests]
      rfl

/-- What a key is read into: an edit of its own. -/
theorem parseSetKey_isSome {key : String} {value : Json} {edits edits' : Edits × Option Nat}
    (h : parseSetKey key value edits = some edits') :
    (edits'.1.community.isSome ↔ key = "community" ∨ edits.1.community.isSome) ∧
      (edits'.1.largeCommunity.isSome ↔ key = "large-community" ∨ edits.1.largeCommunity.isSome) ∧
      (edits'.1.asPathPrepend.isSome ↔ key = "as-path" ∨ edits.1.asPathPrepend.isSome) := by
  obtain ⟨e, weight⟩ := edits
  rw [parseSetKey.eq_def] at h
  dsimp only at h
  split at h
  all_goals first
    | obtain ⟨x, -, rfl⟩ := Option.map_eq_some_iff.mp h
      simp
    | cases h

/-- Which of the three edits that are not plain values a set clause makes. -/
theorem parseSet_isSome {spec : Json} {edits : Edits} {weight : Option Nat}
    (h : parseSet spec = some (edits, weight)) :
    (edits.community = none ↔ spec.get? "community" = none) ∧
      (edits.largeCommunity = none ↔ spec.get? "large-community" = none) ∧
      (edits.asPathPrepend = none ↔ spec.get? "as-path" = none) := by
  have hkeys : ∀ key, spec.get? key = none ↔ key ∉ spec.sortedKeys := by
    intro key
    rw [Json.mem_sortedKeys, ← Option.isSome_iff_exists, Option.not_isSome_iff_eq_none]
  have hrule := parseSet_rule (P := fun keys edits =>
    (edits.1.community.isSome ↔ "community" ∈ keys) ∧
      (edits.1.largeCommunity.isSome ↔ "large-community" ∈ keys) ∧
      (edits.1.asPathPrepend.isSome ↔ "as-path" ∈ keys)) (by simp) ?_ h
  · simp only [hkeys, ← hrule.1, ← hrule.2.1, ← hrule.2.2, Option.not_isSome_iff_eq_none, and_self]
  · rintro keys key value before after ⟨hcommunity, hlarge, hprepend⟩ - hread
    obtain ⟨hcommunity', hlarge', hprepend'⟩ := parseSetKey_isSome hread
    simp only [hcommunity', hlarge', hprepend', hcommunity, hlarge, hprepend, List.mem_append,
      List.mem_singleton, or_comm, eq_comm, and_self]

/-- The plain values of a set clause are such as can be written. -/
structure Writable (edits : Edits × Option Nat) : Prop where
  fits : edits.1.Fits
  nexthop : ∀ addr, edits.1.nexthop = some addr → packAddr (addrText addr) = some addr
  weight : ∀ n, edits.2 = some n → n ≤ 0xffff

theorem parseSetKey_writable {key : String} {value : Json} {edits edits' : Edits × Option Nat}
    (hwritable : Writable edits) (h : parseSetKey key value edits = some edits') :
    Writable edits' := by
  have hfits := parseSetKey_fits hwritable.fits h
  obtain ⟨e, weight⟩ := edits
  rw [parseSetKey.eq_def] at h
  dsimp only at h
  split at h
  · obtain ⟨n, -, rfl⟩ := Option.map_eq_some_iff.mp h
    exact ⟨hfits, hwritable.nexthop, hwritable.weight⟩
  · obtain ⟨n, -, rfl⟩ := Option.map_eq_some_iff.mp h
    exact ⟨hfits, hwritable.nexthop, hwritable.weight⟩
  · obtain ⟨n, -, rfl⟩ := Option.map_eq_some_iff.mp h
    exact ⟨hfits, hwritable.nexthop, hwritable.weight⟩
  · obtain ⟨addr, haddr, rfl⟩ := Option.map_eq_some_iff.mp h
    obtain ⟨text, -, htext⟩ := Option.bind_eq_some_iff.mp haddr
    refine ⟨hfits, ?_, hwritable.weight⟩
    rintro _ ⟨⟩
    exact packAddr_addrText htext
  · obtain ⟨n, hn, rfl⟩ := Option.map_eq_some_iff.mp h
    refine ⟨hfits, hwritable.nexthop, ?_⟩
    rintro _ ⟨⟩
    exact Int.ofNat_le.mp (intIn?_le hn (by decide)).2
  · obtain ⟨edit, -, rfl⟩ := Option.map_eq_some_iff.mp h
    exact ⟨hfits, hwritable.nexthop, hwritable.weight⟩
  · obtain ⟨edit, -, rfl⟩ := Option.map_eq_some_iff.mp h
    exact ⟨hfits, hwritable.nexthop, hwritable.weight⟩
  · obtain ⟨asns, -, rfl⟩ := Option.map_eq_some_iff.mp h
    exact ⟨hfits, hwritable.nexthop, hwritable.weight⟩
  · cases h

theorem parseSet_writable {spec : Json} {out : Edits × Option Nat}
    (h : parseSet spec = some out) : Writable out := by
  have hstart : Writable ({}, none) := ⟨⟨nofun, nofun, nofun, nofun, nofun, nofun⟩, nofun, nofun⟩
  exact parseSet_rule (P := fun _ edits => Writable edits) hstart
    (fun _ _ _ _ _ hbefore _ hread => parseSetKey_writable hbefore hread) h

/-- Every key of a set clause that is accepted is read. -/
theorem parseSet_reads {spec : Json} {out : Edits × Option Nat} (h : parseSet spec = some out)
    {key : String} {value : Json} (hvalue : spec.get? key = some value) :
    ∃ edits edits', parseSetKey key value edits = some edits' := by
  have hrule := parseSet_rule (P := fun keys _ => ∀ key ∈ keys, ∀ value,
    spec.get? key = some value → ∃ edits edits', parseSetKey key value edits = some edits')
    (fun _ hkey => absurd hkey List.not_mem_nil) ?_ h
  · exact hrule key (Json.mem_sortedKeys.mpr ⟨value, hvalue⟩) value hvalue
  · intro keys key value edits edits' hbefore hget hread other hother other' hother'
    rcases List.mem_append.mp hother with hmem | hmem
    · exact hbefore other hmem other' hother'
    · obtain rfl := List.mem_singleton.mp hmem
      rw [hget] at hother'
      obtain rfl := Option.some.inj hother'
      exact ⟨edits, edits', hread⟩

def readField (edits : Edits × Option Nat) (field : String × Json) : Option (Edits × Option Nat) :=
  parseSetKey field.1 field.2 edits

/-- An object whose keys are in order is read field by field. -/
theorem parseSet_of_sorted {fields : List (String × Json)}
    (h : (fields.map Prod.fst).Pairwise (· < ·)) :
    parseSet (.dict fields) = fields.foldlM readField ({}, none) := by
  have hsorted : (Json.dict fields).sortedKeys = fields.map Prod.fst :=
    List.Pairwise.insertionSort_eq (h.imp Std.le_of_lt)
  have hnodup : (fields.map Prod.fst).Nodup := by
    apply h.imp
    rintro a _ hlt rfl
    exact String.lt_irrefl a hlt
  have hget : ∀ field ∈ fields, (Json.dict fields).get? field.1 = some field.2 := by
    intro field hfield
    exact (get?_entries ⟨fields, hnodup⟩ field.1).trans (Dict.mem_entries_iff.mp hfield)
  have hfold : ∀ (rest : List (String × Json)) (edits : Edits × Option Nat),
      (∀ field ∈ rest, (Json.dict fields).get? field.1 = some field.2) →
      (rest.map Prod.fst).foldlM (fun edits key =>
          ((Json.dict fields).get? key).bind fun value => parseSetKey key value edits) edits =
        rest.foldlM readField edits := by
    intro rest
    induction rest with
    | nil => exact fun _ _ => rfl
    | cons field rest ih =>
      intro edits hrest
      rw [List.forall_mem_cons] at hrest
      rw [List.map_cons, List.foldlM_cons, List.foldlM_cons, hrest.1, Option.bind_some]
      exact congrArg _ (funext fun edits' => ih edits' hrest.2)
  rw [parseSet.eq_def]
  dsimp only
  rw [if_neg (by simp [Json.isDict]), hsorted]
  exact hfold fields _ hget

theorem foldlM_editField {α : Type} {key : String} {render : α → Json} {edit : Option α}
    {edits edits' : Edits × Option Nat} (hnone : edit = none → edits' = edits)
    (hsome : ∀ value, edit = some value → parseSetKey key (render value) edits = some edits') :
    (editField key render edit).foldlM readField edits = some edits' := by
  cases edit with
  | none => exact congrArg some (hnone rfl).symm
  | some value =>
    rw [editField, Option.map_some, Option.toList_some, List.foldlM_cons, readField,
      hsome value rfl]
    rfl

theorem keys_editField {α : Type} (key : String) (render : α → Json) (edit : Option α) :
    List.Sublist ((editField key render edit).map Prod.fst) [key] := by
  cases edit with
  | none => exact List.nil_sublist _
  | some value => exact List.Sublist.refl _

/-- Edits that are plain values are shown as they are written. -/
theorem parseSet_editsAsDict {edits : Edits} {weight : Option Nat}
    (h : Writable (edits, weight)) (hcommunity : edits.community = none)
    (hlarge : edits.largeCommunity = none) (hprepend : edits.asPathPrepend = none) :
    parseSet (editsAsDict edits weight) = some (edits, weight) := by
  have hempty : ∀ {α : Type} {key : String} {render : α → Json},
      editField key render none = [] := rfl
  rw [editsAsDict, hcommunity, hlarge, hprepend, hempty, hempty, hempty, List.nil_append,
    List.nil_append, List.nil_append]
  have hsorted : (["local-preference", "metric", "next-hop", "origin", "weight"] :
      List String).Pairwise (· < ·) := by
    decide
  rw [parseSet_of_sorted]
  · have hword : ∀ {n : Nat}, n < 2 ^ 32 → (Json.int n).intIn? 0 UINT32_MAX = some n := by
      intro n hn
      apply intIn?_nat (Int.natCast_nonneg n)
      rw [UINT32_MAX]
      omega
    obtain ⟨pref, med, origin, nexthop, community, large, prepend⟩ := edits
    simp only at hcommunity hlarge hprepend
    subst hcommunity hlarge hprepend
    have hreadPref : (editField "local-preference" (fun n : Nat => Json.int n) pref).foldlM
        readField ({}, none) = some ({ localPref := pref }, none) := by
      apply foldlM_editField
      · rintro rfl
        rfl
      · rintro n rfl
        rw [parseSetKey, hword (h.fits.localPref n rfl), Option.map_some]
    have hreadMed : (editField "metric" (fun n : Nat => Json.int n) med).foldlM readField
        ({ localPref := pref }, none) = some ({ localPref := pref, metric := med }, none) := by
      apply foldlM_editField
      · rintro rfl
        rfl
      · rintro n rfl
        rw [parseSetKey, hword (h.fits.metric n rfl), Option.map_some]
    have hreadHop : (editField "next-hop" (fun addr => Json.str (addrText addr)) nexthop).foldlM
        readField ({ localPref := pref, metric := med }, none) =
          some ({ localPref := pref, metric := med, nexthop := nexthop }, none) := by
      apply foldlM_editField
      · rintro rfl
        rfl
      · rintro addr rfl
        rw [parseSetKey, Json.str?, Option.bind_some, h.nexthop addr rfl, Option.map_some]
    have hreadOrigin : (editField "origin" (fun code => Json.str (originName code))
        origin).foldlM readField
          ({ localPref := pref, metric := med, nexthop := nexthop }, none) =
            some ({ localPref := pref, metric := med, nexthop, origin }, none) := by
      apply foldlM_editField
      · rintro rfl
        rfl
      · rintro code rfl
        rw [parseSetKey, originId_originName (h.fits.origin code rfl), Option.map_some]
    have hreadWeight : (editField "weight" (fun n : Nat => Json.int n) weight).foldlM
        readField ({ localPref := pref, metric := med, nexthop, origin }, none) =
          some ({ localPref := pref, metric := med, nexthop, origin }, weight) := by
      apply foldlM_editField
      · rintro rfl
        rfl
      · rintro n rfl
        have hn := h.weight n rfl
        have hread : (Json.int n).intIn? 0 0xffff = some n :=
          intIn?_nat (Int.natCast_nonneg n) (by omega)
        rw [parseSetKey, hread, Option.map_some]
    simp only [List.foldlM_append, hreadPref, hreadMed, hreadHop, hreadOrigin, hreadWeight,
      Option.bind_eq_bind, Option.bind_some]
  · refine List.Pairwise.sublist ?_ hsorted
    simp only [List.map_append]
    exact (keys_editField _ _ _).append ((keys_editField _ _ _).append
      ((keys_editField _ _ _).append ((keys_editField _ _ _).append (keys_editField _ _ _))))

theorem lookup_editField {α : Type} {key : String} {render : α → Json} {edit : Option α}
    (rest : List (String × Json)) {value : α} (h : edit = some value) :
    (editField key render edit ++ rest).lookup key = some (render value) := by
  rw [h, editField, Option.map_some, Option.toList_some, List.singleton_append,
    List.lookup_cons_self]

theorem lookup_editField_ne {α : Type} {key key' : String} {render : α → Json}
    {edit : Option α} (rest : List (String × Json)) (h : key' ≠ key) :
    (editField key render edit ++ rest).lookup key' = rest.lookup key' := by
  cases edit with
  | none => rfl
  | some value =>
    rw [editField, Option.map_some, Option.toList_some, List.singleton_append,
      List.lookup_cons, beq_eq_false_iff_ne.mpr h]

theorem parseCommunityEdit_shown {α : Type} (parseValues : Json → Option (List α))
    (mode : CommunityMode) (items : List String) :
    parseCommunityEdit parseValues (communityEditAsDict mode items) = none := by
  rw [communityEditAsDict, parseCommunityEdit.eq_def]
  exact if_pos (by simp [Json.keysAmong, Json.keys])

/-- Edits of communities and of the path are not taken as they are shown. -/
theorem plain_of_parseSet_shown {edits : Edits} {weight : Option Nat}
    {out : Edits × Option Nat} (h : parseSet (editsAsDict edits weight) = some out) :
    edits.community = none ∧ edits.largeCommunity = none ∧ edits.asPathPrepend = none := by
  refine ⟨?_, ?_, ?_⟩
  · by_contra hsome
    obtain ⟨edit, hedit⟩ := Option.ne_none_iff_exists'.mp hsome
    have hshown : (editsAsDict edits weight).get? "community" =
        some (communityEditAsDict edit.1 (edit.2.map communityText)) := by
      rw [editsAsDict, Json.get?, lookup_editField_ne _ (by decide), lookup_editField _ hedit]
    obtain ⟨before, after, hread⟩ := parseSet_reads h hshown
    rw [parseSetKey, parseCommunityEdit_shown] at hread
    cases hread
  · by_contra hsome
    obtain ⟨edit, hedit⟩ := Option.ne_none_iff_exists'.mp hsome
    have hshown : (editsAsDict edits weight).get? "large-community" =
        some (communityEditAsDict edit.1 (edit.2.map largeCommunityText)) := by
      rw [editsAsDict, Json.get?, lookup_editField_ne _ (by decide),
        lookup_editField_ne _ (by decide), lookup_editField _ hedit]
    obtain ⟨before, after, hread⟩ := parseSet_reads h hshown
    rw [parseSetKey, parseCommunityEdit_shown] at hread
    cases hread
  · by_contra hsome
    obtain ⟨asns, hasns⟩ := Option.ne_none_iff_exists'.mp hsome
    have hshown : (editsAsDict edits weight).get? "as-path-prepend" =
        some (.list (asns.map fun n => .int n)) := by
      rw [editsAsDict, Json.get?, lookup_editField _ hasns]
    obtain ⟨before, after, hread⟩ := parseSet_reads h hshown
    cases hread

namespace CompiledClause

variable {seq action matchSpec setSpec : Json} {c : CompiledClause}

/-- What a clause is compiled from. -/
theorem new_eq_some_iff : new rx seq action matchSpec setSpec = some c ↔
    seqNumber seq = some c.clause.seq ∧ actionId action = some c.clause.action ∧
      parseMatch rx matchSpec = some c.clause.tests ∧
      parseSet setSpec = some (c.clause.edits, c.clause.weight) ∧
      singleRegex matchSpec = c.single := by
  obtain ⟨⟨n, act, tests, edits, weight⟩, single⟩ := c
  simp only [new, RouteMapClause.new, Option.bind_eq_bind, Option.map_eq_some_iff,
    Option.bind_eq_some_iff, Option.some.injEq, Prod.exists, mk.injEq]
  constructor
  · rintro ⟨_, ⟨_, hseq, _, haction, _, htests, _, _, hedits, rfl⟩, heq, hsingle⟩
    cases heq
    exact ⟨hseq, haction, htests, hedits, hsingle⟩
  · rintro ⟨hseq, haction, htests, hedits, hsingle⟩
    exact ⟨_, ⟨_, hseq, _, haction, _, htests, _, _, hedits, rfl⟩, rfl, hsingle⟩

theorem retype_asDict : retype rx c.asDict =
    new rx (.int c.clause.seq) (.str c.clause.action.text) (matchAsDict c.single c.clause.tests)
      (editsAsDict c.clause.edits c.clause.weight) := by
  rfl

/-- A clause typed back as it is shown is accepted, with the conditions, edits and weight it
has, exactly when it neither sets communities nor prepends. -/
theorem typesBack_iff (hkeys : matchSpec.keys.Nodup)
    (hnew : new rx seq action matchSpec setSpec = some c) :
    c.TypesBack rx ↔ setSpec.get? "community" = none ∧
      setSpec.get? "large-community" = none ∧ setSpec.get? "as-path" = none := by
  obtain ⟨hseq, haction, htests, hedits, hsingle⟩ := new_eq_some_iff.mp hnew
  obtain ⟨hcommunity, hlarge, hprepend⟩ := parseSet_isSome hedits
  rw [← hcommunity, ← hlarge, ← hprepend]
  constructor
  · rintro ⟨c', hretype, -⟩
    rw [retype_asDict] at hretype
    obtain ⟨-, -, -, hset, -⟩ := new_eq_some_iff.mp hretype
    exact plain_of_parseSet_shown hset
  · rintro ⟨hnone, hnone', hnone''⟩
    have hshownMatch := parseMatch_matchAsDict hkeys htests
    rw [hsingle] at hshownMatch
    have hshownSet := parseSet_editsAsDict (parseSet_writable hedits) hnone hnone' hnone''
    have hshownAction : ∀ act : Action, actionId (.str act.text) = some act := by
      intro act
      cases act <;> rfl
    refine ⟨⟨c.clause, singleRegex (matchAsDict c.single c.clause.tests)⟩, ?_, rfl, rfl, rfl⟩
    rw [retype_asDict, new_eq_some_iff]
    exact ⟨intIn?_self hseq (by decide), hshownAction _, hshownMatch, hshownSet, rfl⟩

def anyRegex : RegexEngine := ⟨fun _ => true, fun _ _ => false⟩

def plainMatch : Json :=
  .dict [("community", .list [.str "no-export", .str "65000:1"]), ("metric", .int 5)]

def plainSet : Json := .dict [("next-hop", .str "192.0.2.1"), ("weight", .int 7)]

def plainClause : CompiledClause :=
  ⟨⟨10, .permit, [.metric 5, .community [65000 * 65536 + 1, 0xffffff01] false],
    { nexthop := some [192, 0, 2, 1] }, some 7⟩, false⟩

theorem typesBack_iff_plain : plainClause.TypesBack anyRegex := by
  have hkeys : plainMatch.keys.Nodup := by decide
  have hnew : new anyRegex (.int 10) (.str "permit") plainMatch plainSet = some plainClause := by
    decide +kernel
  rw [typesBack_iff hkeys hnew]
  exact ⟨rfl, rfl, rfl⟩

def taggingClause : CompiledClause :=
  ⟨⟨10, .permit, [], { community := some (.set, [0xffffff01]) }, none⟩, false⟩

theorem not_typesBack_tagging :
    new anyRegex (.int 10) (.str "permit") .null
        (.dict [("community", .list [.str "no-export"])]) = some taggingClause ∧
      ¬ taggingClause.TypesBack anyRegex := by
  have hretype : retype anyRegex taggingClause.asDict = none := by decide +kernel
  refine ⟨by decide +kernel, ?_⟩
  rintro ⟨c', hc', -⟩
  rw [hretype] at hc'
  cases hc'

end CompiledClause

end Packets
