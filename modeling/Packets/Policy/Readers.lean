/-
The readers of policy sections are faithful to snapshots.

An entry or a clause that is accepted is read the same from every fragment with its snapshot.
What a reader takes of an array is never the pairs an object freezes to.
-/
import Packets.Config.Snapshot
import Packets.Policy.Store

namespace Packets

theorem faithful_actionId : Faithful actionId := by
  apply Faithful.of_plain
  intro j x hx
  unfold actionId at hx
  split at hx <;> simp_all [Json.Plain]

theorem faithful_seqNumber : Faithful seqNumber := Faithful.intIn? 0 MAX_SEQ

/-- An accepted entry is one decision on its five fields. -/
theorem PrefixListEntry.new_of_freeze {seq seq' action action' pfx pfx' le le' ge ge' : Json}
    {e e' : PrefixListEntry} (hseq : freeze seq = freeze seq')
    (haction : freeze action = freeze action') (hpfx : freeze pfx = freeze pfx')
    (hle : freeze le = freeze le') (hge : freeze ge = freeze ge')
    (he : PrefixListEntry.new seq action pfx le ge = some e)
    (he' : PrefixListEntry.new seq' action' pfx' le' ge' = some e') : e = e' := by
  unfold PrefixListEntry.new at he he'
  simp only [Option.bind_eq_bind, Option.bind_eq_some_iff] at he he'
  obtain ⟨p, ⟨text, htext, hp⟩, l, hl, g, hg, he⟩ := he
  obtain ⟨p', ⟨text', htext', hp'⟩, l', hl', g', hg', he'⟩ := he'
  have htextEq : text = text' := Faithful.str? hpfx htext htext'
  rw [htextEq, hp', Option.some.injEq] at hp
  subst hp
  have hlEq : l = l' := Faithful.intIn? 0 _ hle hl hl'
  have hgEq : g = g' := Faithful.intIn? 0 _ hge hg hg'
  subst hlEq hgEq
  simp only [Option.ite_none_left_eq_some, Option.bind_eq_some_iff, Option.some.injEq] at he he'
  obtain ⟨-, -, -, n, hn, a, ha, rfl⟩ := he
  obtain ⟨-, -, -, n', hn', a', ha', rfl⟩ := he'
  rw [faithful_seqNumber hseq hn hn', faithful_actionId haction ha ha']

theorem faithful_prefixListEntryOf (index : Nat) :
    Faithful fun entry => prefixListEntryOf entry index := by
  intro a b x y hfreeze hx hy
  simp only [prefixListEntryOf, Option.bind_eq_bind, Option.ite_none_left_eq_some,
    Bool.or_eq_true, Bool.not_eq_true', not_or, Bool.not_eq_false,
    Option.bind_eq_some_iff] at hx hy
  obtain ⟨⟨ha, -⟩, action, haction, pfx, hpfx, hx⟩ := hx
  obtain ⟨⟨hb, -⟩, action', haction', pfx', hpfx', hy⟩ := hy
  exact PrefixListEntry.new_of_freeze (Json.getD_of_freeze ha hb hfreeze _ _)
    (Json.get?_some_of_freeze ha hb hfreeze haction haction')
    (Json.get?_some_of_freeze ha hb hfreeze hpfx hpfx')
    (Json.getD_of_freeze ha hb hfreeze _ _) (Json.getD_of_freeze ha hb hfreeze _ _) hx hy

theorem faithful_asPathPattern (rx : RegexEngine) : Faithful (asPathPattern rx) := by
  apply Faithful.of_plain
  intro j x hx
  cases j <;> simp_all [asPathPattern, Json.str?, Json.Plain]

/-- The regex of an entry, under either of its spellings. -/
def regexOf (entry : Json) : Option Json :=
  match entry.get? "regex", entry.get? "pattern" with
  | some _, some _ => none
  | some regex, none => some regex
  | none, pattern => pattern

theorem regexOf_of_freeze {a b x y : Json} (ha : a.isDict = true) (hb : b.isDict = true)
    (h : freeze a = freeze b) (hx : regexOf a = some x) (hy : regexOf b = some y) :
    freeze x = freeze y := by
  have hregex := Json.get?_of_freeze ha hb h "regex"
  have hpattern := Json.get?_of_freeze ha hb h "pattern"
  unfold regexOf at hx hy
  cases har : a.get? "regex" <;> cases hap : a.get? "pattern" <;>
    cases hbr : b.get? "regex" <;> cases hbp : b.get? "pattern" <;> simp_all

theorem faithful_asPathListEntryOf (rx : RegexEngine) (index : Nat) :
    Faithful fun entry => asPathListEntryOf rx entry index := by
  intro a b x y hfreeze hx hy
  have hspell : ∀ {entry : Json} {e : AsPathListEntry},
      asPathListEntryOf rx entry index = some e →
        entry.isDict = true ∧ ∃ action, entry.get? "action" = some action ∧
          ∃ regex, regexOf entry = some regex ∧
            AsPathListEntry.new rx ((entry.get? "seq").getD (autoSeq index 5)) action regex =
              some e := by
    intro entry e he
    simp only [asPathListEntryOf, Option.bind_eq_bind, Option.ite_none_left_eq_some,
      Bool.or_eq_true, Bool.not_eq_true', not_or, Bool.not_eq_false,
      Option.bind_eq_some_iff] at he
    obtain ⟨⟨hdict, -⟩, action, haction, he⟩ := he
    refine ⟨hdict, action, haction, ?_⟩
    unfold regexOf
    cases hregex : entry.get? "regex" <;> cases hpattern : entry.get? "pattern" <;>
      simp_all
  obtain ⟨ha, action, haction, regex, hregex, hx⟩ := hspell hx
  obtain ⟨hb, action', haction', regex', hregex', hy⟩ := hspell hy
  simp only [AsPathListEntry.new, Option.bind_eq_bind, Option.bind_eq_some_iff,
    Option.some.injEq] at hx hy
  obtain ⟨n, hn, act, hact, p, hp, rfl⟩ := hx
  obtain ⟨n', hn', act', hact', p', hp', rfl⟩ := hy
  rw [faithful_seqNumber (Json.getD_of_freeze ha hb hfreeze _ _) hn hn',
    faithful_actionId (Json.get?_some_of_freeze ha hb hfreeze haction haction') hact hact',
    faithful_asPathPattern rx (regexOf_of_freeze ha hb hfreeze hregex hregex') hp hp']

/-- A reader that takes nothing an object freezes to. -/
def RejectsObjects {α : Type} (read : Json → Option α) : Prop :=
  ∀ ⦃j x⦄, read j = some x → ∀ fields, freeze j ≠ freeze (.dict fields)

theorem pair_of_freeze_dict {item : Json} {rest : List Json} {fields : List (String × Json)}
    (h : freeze (.list (item :: rest)) = freeze (.dict fields)) :
    ∃ key value, freeze item = .tuple [.str key, value] := by
  simp only [freeze, freezeList, Frozen.tuple.injEq] at h
  cases hsorted : Frozen.sortFields (freezeFields fields) with
  | nil => simp [hsorted] at h
  | cons e others =>
    rw [hsorted, List.map_cons, List.cons.injEq] at h
    exact ⟨e.1, e.2, h.1⟩

theorem faithful_originId : Faithful originId := by
  apply Faithful.of_plain
  intro j x hx
  unfold originId at hx
  split at hx <;> simp_all [Json.Plain]

theorem plain_of_communityValue {j : Json} {n : Nat} (h : communityValue j = some n) :
    j.Plain := by
  cases j <;> simp_all [communityValue, Json.Plain]

theorem faithful_communityValue : Faithful communityValue :=
  Faithful.of_plain fun _ _ => plain_of_communityValue

theorem largeCommunityValue_shape {j : Json} {v : LargeCommunity}
    (h : largeCommunityValue j = some v) :
    (∃ text, j = .str text) ∨ ∃ a b c, j = .list [a, b, c] := by
  unfold largeCommunityValue at h
  split at h
  · exact Or.inr ⟨_, _, _, rfl⟩
  · exact Or.inl ⟨_, rfl⟩
  · exact absurd h (by simp)

theorem faithful_largeCommunityValue : Faithful largeCommunityValue := by
  intro a b x y hfreeze hx hy
  rcases largeCommunityValue_shape hx with ⟨text, rfl⟩ | ⟨a₀, a₁, a₂, rfl⟩
  · rcases largeCommunityValue_shape hy with ⟨text', rfl⟩ | ⟨b₀, b₁, b₂, rfl⟩
    · have htext : text = text' := by simpa [freeze] using hfreeze
      rw [htext, hy] at hx
      exact (Option.some.inj hx).symm
    · simp [freeze] at hfreeze
  · rcases largeCommunityValue_shape hy with ⟨text', rfl⟩ | ⟨b₀, b₁, b₂, rfl⟩
    · simp [freeze] at hfreeze
    · simp only [freeze, freezeList, Frozen.tuple.injEq, List.cons.injEq, and_true] at hfreeze
      simp only [largeCommunityValue, Option.bind_eq_bind, Option.bind_eq_some_iff,
        Option.some.injEq] at hx hy
      obtain ⟨u, hu, v, hv, w, hw, rfl⟩ := hx
      obtain ⟨u', hu', v', hv', w', hw', rfl⟩ := hy
      rw [Faithful.intIn? 0 _ hfreeze.1 hu hu', Faithful.intIn? 0 _ hfreeze.2.1 hv hv',
        Faithful.intIn? 0 _ hfreeze.2.2 hw hw']

theorem communityValues_shape {j : Json} {values : List Nat} (h : communityValues j = some values) :
    ∃ item rest read, j = .list (item :: rest) ∧
      (item :: rest).mapM communityValue = some read ∧
        values = read.dedup.insertionSort (· ≤ ·) := by
  unfold communityValues at h
  split at h
  · rename_i item rest hitems
    obtain ⟨read, hread, rfl⟩ := Option.map_eq_some_iff.mp h
    cases j <;> simp_all [Json.items?]
  · exact absurd h (by simp)

theorem faithful_communityValues : Faithful communityValues := by
  intro a b x y hfreeze hx hy
  obtain ⟨i, is, u, rfl, hu, rfl⟩ := communityValues_shape hx
  obtain ⟨k, ks, v, rfl, hv, rfl⟩ := communityValues_shape hy
  rw [faithful_communityValue.mapM (Json.forall₂_of_freeze hfreeze) hu hv]

theorem rejectsObjects_communityValues : RejectsObjects communityValues := by
  intro j x hx fields heq
  obtain ⟨item, rest, read, rfl, hread, -⟩ := communityValues_shape hx
  obtain ⟨key, value, hpair⟩ := pair_of_freeze_dict heq
  simp only [List.mapM_cons, Option.bind_eq_bind, Option.bind_eq_some_iff] at hread
  obtain ⟨n, hn, -⟩ := hread
  have hplain := plain_of_communityValue hn
  cases item <;> simp_all [Json.Plain, freeze]

theorem largeCommunityValues_shape {j : Json} {values : List LargeCommunity}
    (h : largeCommunityValues j = some values) :
    ∃ item rest read, j = .list (item :: rest) ∧
      (item :: rest).mapM largeCommunityValue = some read ∧
        values = read.dedup.insertionSort fun x y => largeLe x y := by
  unfold largeCommunityValues at h
  split at h
  · rename_i item rest hitems
    obtain ⟨read, hread, rfl⟩ := Option.map_eq_some_iff.mp h
    cases j <;> simp_all [Json.items?]
  · exact absurd h (by simp)

theorem faithful_largeCommunityValues : Faithful largeCommunityValues := by
  intro a b x y hfreeze hx hy
  obtain ⟨i, is, u, rfl, hu, rfl⟩ := largeCommunityValues_shape hx
  obtain ⟨k, ks, v, rfl, hv, rfl⟩ := largeCommunityValues_shape hy
  rw [faithful_largeCommunityValue.mapM (Json.forall₂_of_freeze hfreeze) hu hv]

theorem rejectsObjects_largeCommunityValues : RejectsObjects largeCommunityValues := by
  intro j x hx fields heq
  obtain ⟨item, rest, read, rfl, hread, -⟩ := largeCommunityValues_shape hx
  obtain ⟨key, value, hpair⟩ := pair_of_freeze_dict heq
  simp only [List.mapM_cons, Option.bind_eq_bind, Option.bind_eq_some_iff] at hread
  obtain ⟨v, hv, -⟩ := hread
  rcases largeCommunityValue_shape hv with ⟨text, rfl⟩ | ⟨p, q, r, rfl⟩
  · simp [freeze] at hpair
  · simp [freeze, freezeList] at hpair

section

variable {α : Type} {parseValues : Json → Option (List α)}

theorem faithful_parseCommunityMatch (hfaithful : Faithful parseValues)
    (hrejects : RejectsObjects parseValues) (factory : List α → Bool → Match) :
    Faithful (parseCommunityMatch parseValues factory) := by
  intro a b x y hfreeze hx hy
  unfold parseCommunityMatch at hx hy
  by_cases ha : a.isDict = true
  · by_cases hb : b.isDict = true
    · simp only [ha, hb, ↓reduceIte, Option.ite_none_left_eq_some, Option.bind_eq_bind,
        Option.bind_eq_some_iff, Option.some.injEq] at hx hy
      obtain ⟨-, items, hitems, exact, hexact, values, hvalues, rfl⟩ := hx
      obtain ⟨-, items', hitems', exact', hexact', values', hvalues', rfl⟩ := hy
      rw [Faithful.bool? (Json.getD_of_freeze ha hb hfreeze _ _) hexact hexact',
        hfaithful (Json.get?_some_of_freeze ha hb hfreeze hitems hitems') hvalues hvalues']
    · rw [if_neg hb] at hy
      obtain ⟨values, hvalues, -⟩ := Option.map_eq_some_iff.mp hy
      obtain ⟨fields, rfl⟩ := Json.isDict_iff.mp ha
      exact absurd hfreeze.symm (hrejects hvalues fields)
  · rw [if_neg ha] at hx
    obtain ⟨values, hvalues, rfl⟩ := Option.map_eq_some_iff.mp hx
    by_cases hb : b.isDict = true
    · obtain ⟨fields, rfl⟩ := Json.isDict_iff.mp hb
      exact absurd hfreeze (hrejects hvalues fields)
    · rw [if_neg hb] at hy
      obtain ⟨values', hvalues', rfl⟩ := Option.map_eq_some_iff.mp hy
      rw [hfaithful hfreeze hvalues hvalues']

/-- An edit is the word that clears, an object with its options, or bare values. -/
theorem parseCommunityEdit_shape {j : Json} {edit : CommunityMode × List α}
    (h : parseCommunityEdit parseValues j = some edit) :
    (j = .str "none" ∧ edit = (.none, [])) ∨
      (j.isDict = true ∧ ∃ items, j.get? "list" = some items ∧
        ∃ additive, ((j.get? "additive").getD (.bool false)).bool? = some additive ∧
          ∃ values, parseValues items = some values ∧
            edit = (if additive then .add else .set, values)) ∨
      ((∀ text, j ≠ .str text) ∧
        ∃ values, parseValues j = some values ∧ edit = (.set, values)) := by
  unfold parseCommunityEdit at h
  split at h
  · rename_i text
    obtain ⟨htext, hedit⟩ := Option.ite_none_right_eq_some.mp h
    exact Or.inl ⟨congrArg Json.str htext, (Option.some.inj hedit).symm⟩
  · rename_i fields
    simp only [Option.ite_none_left_eq_some, Option.bind_eq_bind, Option.bind_eq_some_iff,
      Option.some.injEq] at h
    obtain ⟨-, items, hitems, additive, hadditive, values, hvalues, rfl⟩ := h
    exact Or.inr (Or.inl ⟨rfl, items, hitems, additive, hadditive, values, hvalues, rfl⟩)
  · rename_i hstr hdict
    obtain ⟨values, hvalues, rfl⟩ := Option.map_eq_some_iff.mp h
    exact Or.inr (Or.inr ⟨hstr, values, hvalues, rfl⟩)

theorem faithful_parseCommunityEdit (hfaithful : Faithful parseValues)
    (hrejects : RejectsObjects parseValues) : Faithful (parseCommunityEdit parseValues) := by
  have hword : ∀ {j : Json} {text}, freeze (.str text) = freeze j → j = .str text := by
    intro j text h
    cases j <;> simp_all [freeze]
  have hobject : ∀ {j : Json}, j.isDict = true → ∀ text, freeze (.str text) ≠ freeze j := by
    intro j hj text h
    rw [hword h] at hj
    exact absurd hj (by simp [Json.isDict])
  intro a b x y hfreeze hx hy
  rcases parseCommunityEdit_shape hx with
    ⟨rfl, rfl⟩ | ⟨ha, items, hitems, additive, hadditive, values, hvalues, rfl⟩ |
      ⟨ha, values, hvalues, rfl⟩ <;>
    rcases parseCommunityEdit_shape hy with
      ⟨rfl, rfl⟩ | ⟨hb, items', hitems', additive', hadditive', values', hvalues', rfl⟩ |
        ⟨hb, values', hvalues', rfl⟩
  · rfl
  · exact absurd hfreeze (hobject hb _)
  · exact absurd (hword hfreeze) (hb _)
  · exact absurd hfreeze.symm (hobject ha _)
  · rw [Faithful.bool? (Json.getD_of_freeze ha hb hfreeze _ _) hadditive hadditive',
      hfaithful (Json.get?_some_of_freeze ha hb hfreeze hitems hitems') hvalues hvalues']
  · obtain ⟨fields, rfl⟩ := Json.isDict_iff.mp ha
    exact absurd hfreeze.symm (hrejects hvalues' fields)
  · exact absurd (hword hfreeze.symm) (ha _)
  · obtain ⟨fields, rfl⟩ := Json.isDict_iff.mp hb
    exact absurd hfreeze (hrejects hvalues fields)
  · rw [hfaithful hfreeze hvalues hvalues']

end

theorem faithful_name? : Faithful name? := by
  intro a b x y hfreeze hx hy
  obtain ⟨ha, -⟩ := Option.filter_eq_some_iff.mp hx
  obtain ⟨hb, -⟩ := Option.filter_eq_some_iff.mp hy
  exact Faithful.str? hfreeze ha hb

theorem faithful_parsePrefixListMatch (afi : Nat) : Faithful (parsePrefixListMatch afi) := by
  intro a b x y hfreeze hx hy
  simp only [parsePrefixListMatch, Option.bind_eq_bind, Option.ite_none_left_eq_some,
    Bool.or_eq_true, Bool.not_eq_true', not_or, Bool.not_eq_false, Option.bind_eq_some_iff,
    Option.some.injEq] at hx hy
  obtain ⟨⟨ha, -⟩, inner, hinner, ⟨hdict, -⟩, text, htext, name, hname, rfl⟩ := hx
  obtain ⟨⟨hb, -⟩, inner', hinner', ⟨hdict', -⟩, text', htext', name', hname', rfl⟩ := hy
  have hinnerEq := Json.get?_some_of_freeze ha hb hfreeze hinner hinner'
  have htextEq := Json.get?_some_of_freeze hdict hdict' hinnerEq htext htext'
  rw [faithful_name? htextEq hname hname']

/-- A match on the path is a named list, or one or more regexes. -/
theorem parseAsPathMatch_shape {rx : RegexEngine} {j : Json} {test : Match}
    (h : parseAsPathMatch rx j = some test) :
    (j.isDict = true ∧ ∃ inner, j.get? "access-list" = some inner ∧
        ∃ name, name? inner = some name ∧ test = .asPathList name) ∨
      (∃ text pattern, j = .str text ∧ asPathPattern rx j = some pattern ∧
        test = .asPathRegex [pattern]) ∨
      ∃ item rest patterns, j = .list (item :: rest) ∧
        (item :: rest).mapM (asPathPattern rx) = some patterns ∧ test = .asPathRegex patterns := by
  unfold parseAsPathMatch at h
  split at h
  · simp only [Option.ite_none_left_eq_some, Option.bind_eq_bind, Option.bind_eq_some_iff,
      Option.some.injEq] at h
    obtain ⟨-, inner, hinner, name, hname, rfl⟩ := h
    exact Or.inl ⟨rfl, inner, hinner, name, hname, rfl⟩
  · obtain ⟨pattern, hpattern, rfl⟩ := Option.map_eq_some_iff.mp h
    exact Or.inr (Or.inl ⟨_, pattern, rfl, hpattern, rfl⟩)
  · obtain ⟨patterns, hpatterns, rfl⟩ := Option.map_eq_some_iff.mp h
    exact Or.inr (Or.inr ⟨_, _, patterns, rfl, hpatterns, rfl⟩)
  · exact absurd h (by simp)

theorem faithful_parseAsPathMatch (rx : RegexEngine) : Faithful (parseAsPathMatch rx) := by
  have hpairs : ∀ {item rest patterns} {fields : List (String × Json)},
      (item :: rest).mapM (asPathPattern rx) = some patterns →
        freeze (.list (item :: rest)) ≠ freeze (.dict fields) := by
    intro item rest patterns fields hread heq
    obtain ⟨key, value, hpair⟩ := pair_of_freeze_dict heq
    simp only [List.mapM_cons, Option.bind_eq_bind, Option.bind_eq_some_iff] at hread
    obtain ⟨p, hp, -⟩ := hread
    cases item <;> simp_all [asPathPattern, Json.str?, freeze]
  intro a b x y hfreeze hx hy
  rcases parseAsPathMatch_shape hx with
    ⟨ha, inner, hinner, name, hname, rfl⟩ | ⟨text, pattern, rfl, hpattern, rfl⟩ |
      ⟨item, rest, patterns, rfl, hpatterns, rfl⟩ <;>
    rcases parseAsPathMatch_shape hy with
      ⟨hb, inner', hinner', name', hname', rfl⟩ | ⟨text', pattern', rfl, hpattern', rfl⟩ |
        ⟨item', rest', patterns', rfl, hpatterns', rfl⟩
  · rw [faithful_name? (Json.get?_some_of_freeze ha hb hfreeze hinner hinner') hname hname']
  · obtain ⟨fields, rfl⟩ := Json.isDict_iff.mp ha
    simp [freeze] at hfreeze
  · obtain ⟨fields, rfl⟩ := Json.isDict_iff.mp ha
    exact absurd hfreeze.symm (hpairs hpatterns')
  · obtain ⟨fields, rfl⟩ := Json.isDict_iff.mp hb
    simp [freeze] at hfreeze
  · rw [faithful_asPathPattern rx hfreeze hpattern hpattern']
  · simp [freeze] at hfreeze
  · obtain ⟨fields, rfl⟩ := Json.isDict_iff.mp hb
    exact absurd hfreeze (hpairs hpatterns)
  · simp [freeze] at hfreeze
  · rw [(faithful_asPathPattern rx).mapM (Json.forall₂_of_freeze hfreeze) hpatterns hpatterns']

theorem faithful_packAddr : Faithful fun j => j.str?.bind packAddr := Faithful.str?.bind packAddr

theorem faithful_parseMatchKey (rx : RegexEngine) (key : String) :
    Faithful (parseMatchKey rx key) := by
  unfold parseMatchKey
  split
  · exact faithful_parsePrefixListMatch AFI_IP
  · exact faithful_parsePrefixListMatch AFI_IP6
  · exact faithful_parseAsPathMatch rx
  · exact faithful_parseCommunityMatch faithful_communityValues rejectsObjects_communityValues _
  · exact faithful_parseCommunityMatch faithful_largeCommunityValues
      rejectsObjects_largeCommunityValues _
  · exact (Faithful.intIn? 0 UINT32_MAX).map _
  · exact (Faithful.intIn? 0 UINT32_MAX).map _
  · exact faithful_originId.map _
  · exact faithful_packAddr.map _
  · intro a b x y _ hx _
    exact absurd hx (by simp)

theorem keys_of_freeze {a b : Json} (ha : a.isDict = true) (hb : b.isDict = true)
    (h : freeze a = freeze b) :
    a.sortedKeys = b.sortedKeys ∧ ∀ ⦃key x y⦄, a.get? key = some x → b.get? key = some y →
      freeze x = freeze y :=
  ⟨Json.sortedKeys_of_freeze ha hb h, fun _ _ _ => Json.get?_some_of_freeze ha hb h⟩

theorem faithful_parseMatch (rx : RegexEngine) : Faithful (parseMatch rx) := by
  have hshape : ∀ {j : Json} {tests}, parseMatch rx j = some tests →
      (j = .null ∧ tests = []) ∨ (j.isDict = true ∧ ∃ found,
        (j.sortedKeys.mapM fun key => (j.get? key).bind (parseMatchKey rx key)) = some found ∧
          tests = found.insertionSort fun x y => x.cost ≤ y.cost) := by
    intro j tests h
    unfold parseMatch at h
    split at h
    · exact Or.inl ⟨rfl, (Option.some.inj h).symm⟩
    · simp only [Bool.not_eq_true', Option.ite_none_left_eq_some, Bool.not_eq_false,
        Option.map_eq_some_iff] at h
      obtain ⟨hdict, found, hfound, rfl⟩ := h
      exact Or.inr ⟨hdict, found, hfound, rfl⟩
  have hnull : ∀ {j : Json}, j.isDict = true → freeze .null ≠ freeze j := by
    intro j hj h
    obtain ⟨fields, rfl⟩ := Json.isDict_iff.mp hj
    simp [freeze] at h
  intro a b x y hfreeze hx hy
  rcases hshape hx with ⟨rfl, rfl⟩ | ⟨ha, found, hfound, rfl⟩ <;>
    rcases hshape hy with ⟨rfl, rfl⟩ | ⟨hb, found', hfound', rfl⟩
  · rfl
  · exact absurd hfreeze (hnull hb)
  · exact absurd hfreeze.symm (hnull ha)
  · obtain ⟨hkeys, hvalues⟩ := keys_of_freeze ha hb hfreeze
    rw [← hkeys] at hfound'
    rw [Mapped.eq_of_forall₂ (R := Eq) ?_ (List.forall₂_refl _) hfound hfound']
    rintro key _ u v rfl hu hv
    obtain ⟨j, hj, hu⟩ := Option.bind_eq_some_iff.mp hu
    obtain ⟨j', hj', hv⟩ := Option.bind_eq_some_iff.mp hv
    exact faithful_parseMatchKey rx key (hvalues hj hj') hu hv

theorem faithful_parsePrepend : Faithful parsePrepend := by
  have hshape : ∀ {j : Json} {asns}, parsePrepend j = some asns →
      j.isDict = true ∧ ∃ inner, j.get? "prepend" = some inner ∧
        ((∃ text, inner = .str text ∧
            ((words text.toList).mapM fun item => (decimal? item).bind asNumber?) = some asns) ∨
          ∃ items, inner = .list items ∧
            (items.mapM fun item => item.intIn? 1 UINT32_MAX) = some asns) := by
    intro j asns h
    simp only [parsePrepend, Bool.or_eq_true, Bool.not_eq_true', Option.ite_none_left_eq_some,
      not_or, Bool.not_eq_false] at h
    obtain ⟨⟨hdict, -⟩, h⟩ := h
    split at h
    · rename_i text hinner
      split at h
      · exact absurd h (by simp)
      · exact ⟨hdict, _, hinner, Or.inl ⟨text, rfl, h⟩⟩
    · rename_i item rest hinner
      exact ⟨hdict, _, hinner, Or.inr ⟨_, rfl, h⟩⟩
    · exact absurd h (by simp)
  intro a b x y hfreeze hx hy
  obtain ⟨ha, inner, hinner, hx⟩ := hshape hx
  obtain ⟨hb, inner', hinner', hy⟩ := hshape hy
  have hinnerEq := Json.get?_some_of_freeze ha hb hfreeze hinner hinner'
  rcases hx with ⟨text, rfl, hx⟩ | ⟨items, rfl, hx⟩ <;>
    rcases hy with ⟨text', rfl, hy⟩ | ⟨items', rfl, hy⟩
  · have htext : text = text' := by simpa [freeze] using hinnerEq
    rw [htext, hy] at hx
    exact (Option.some.inj hx).symm
  · simp [freeze] at hinnerEq
  · simp [freeze] at hinnerEq
  · exact (Faithful.intIn? 1 UINT32_MAX).mapM (Json.forall₂_of_freeze hinnerEq) hx hy

theorem faithful_parseSetKey (key : String) (edits : Edits × Option Nat) :
    Faithful fun value => parseSetKey key value edits := by
  obtain ⟨e, weight⟩ := edits
  unfold parseSetKey
  dsimp only
  split
  · exact (Faithful.intIn? 0 UINT32_MAX).map _
  · exact (Faithful.intIn? 0 UINT32_MAX).map _
  · exact faithful_originId.map _
  · exact faithful_packAddr.map _
  · exact (Faithful.intIn? 0 0xffff).map _
  · exact (faithful_parseCommunityEdit faithful_communityValues
      rejectsObjects_communityValues).map _
  · exact (faithful_parseCommunityEdit faithful_largeCommunityValues
      rejectsObjects_largeCommunityValues).map _
  · exact faithful_parsePrepend.map _
  · intro a b x y _ hx _
    exact absurd hx (by simp)

/-- Edits gathered over the same keys from members that freeze alike agree. -/
theorem parseSetKeys_of_freeze {a b : Json} {keys : List String}
    (hvalues : ∀ ⦃key x y⦄, a.get? key = some x → b.get? key = some y → freeze x = freeze y)
    {edits u v : Edits × Option Nat}
    (hu : keys.foldlM (fun edits key =>
      (a.get? key).bind fun value => parseSetKey key value edits) edits = some u)
    (hv : keys.foldlM (fun edits key =>
      (b.get? key).bind fun value => parseSetKey key value edits) edits = some v) : u = v := by
  induction keys generalizing edits with
  | nil =>
    rw [List.foldlM_nil] at hu hv
    exact Option.some.inj (hu.symm.trans hv)
  | cons key rest ih =>
    simp only [List.foldlM_cons, Option.bind_eq_bind, Option.bind_eq_some_iff] at hu hv
    obtain ⟨mid, ⟨x, hx, hmid⟩, hu⟩ := hu
    obtain ⟨mid', ⟨y, hy, hmid'⟩, hv⟩ := hv
    have hmidEq : mid = mid' := faithful_parseSetKey key edits (hvalues hx hy) hmid hmid'
    exact ih hu (hmidEq ▸ hv)

theorem faithful_parseSet : Faithful parseSet := by
  intro a b x y hfreeze hx hy
  unfold parseSet at hx hy
  split at hx <;> split at hy
  · exact Option.some.inj (hx.symm.trans hy)
  · simp only [Bool.not_eq_true', Option.ite_none_left_eq_some, Bool.not_eq_false] at hy
    obtain ⟨fields, rfl⟩ := Json.isDict_iff.mp hy.1
    simp [freeze] at hfreeze
  · simp only [Bool.not_eq_true', Option.ite_none_left_eq_some, Bool.not_eq_false] at hx
    obtain ⟨fields, rfl⟩ := Json.isDict_iff.mp hx.1
    simp [freeze] at hfreeze
  · simp only [Bool.not_eq_true', Option.ite_none_left_eq_some, Bool.not_eq_false] at hx hy
    obtain ⟨hkeys, hvalues⟩ := keys_of_freeze hx.1 hy.1 hfreeze
    exact parseSetKeys_of_freeze hvalues hx.2 (hkeys ▸ hy.2)

theorem faithful_routeMapClauseOf (rx : RegexEngine) (index : Nat) :
    Faithful fun clause => routeMapClauseOf rx clause index := by
  intro a b x y hfreeze hx hy
  simp only [routeMapClauseOf, RouteMapClause.new, Option.bind_eq_bind,
    Option.ite_none_left_eq_some, Bool.or_eq_true, Bool.not_eq_true', not_or,
    Bool.not_eq_false, Option.bind_eq_some_iff, Option.some.injEq] at hx hy
  obtain ⟨⟨ha, -⟩, action, haction, n, hn, act, hact, tests, htests, edits, hedits, rfl⟩ := hx
  obtain ⟨⟨hb, -⟩, action', haction', n', hn', act', hact', tests', htests', edits', hedits',
    rfl⟩ := hy
  rw [faithful_seqNumber (Json.getD_of_freeze ha hb hfreeze _ _) hn hn',
    faithful_actionId (Json.get?_some_of_freeze ha hb hfreeze haction haction') hact hact',
    faithful_parseMatch rx (Json.getD_of_freeze ha hb hfreeze _ _) htests htests',
    faithful_parseSet (Json.getD_of_freeze ha hb hfreeze _ _) hedits hedits']

end Packets
