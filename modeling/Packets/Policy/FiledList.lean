/-
The prefix-list on its trie (`policy/prefixlist.pyx`).

A lookup goes down the trie towards the candidate, past the buckets of the prefixes that cover
it, and finds what a scan of the entries finds first.
-/
import Packets.Policy.PrefixList
import Packets.Rib.TrieMap

namespace Packets

/-- The value stored under a prefix, changed where it is. -/
def Trie.mutate {V : Type} (t : Trie V) (p : Prefix) (v : V) : Trie V :=
  match t.nodeExact p.addr p.plen with
  | none => t
  | some n => t.withValue n (some v)

/-- A prefix-list as it is kept: its entries, and a trie of buckets of them. -/
structure FiledList where
  afi : Nat
  version : Nat
  entries : List PrefixListEntry
  trie : Trie (List PrefixListEntry)

namespace FiledList

/-- The constructor; `none` is the `ValueError` of an unknown family. -/
def new (afi : Nat) : Option FiledList := (Trie.new afi).map fun trie => ⟨afi, 0, [], trie⟩

/-- The loop of `_index_of`, which halves what is left. -/
def indexLoop (entries : List PrefixListEntry) (seq : Nat) : Nat → Nat → Nat → Int
  | 0, lo, _ => -1 - lo
  | fuel + 1, lo, hi =>
    if lo < hi then
      let mid := (lo + hi) / 2
      match entries[mid]? with
      | none => -1 - lo
      | some entry =>
        if entry.seq = seq then mid
        else if entry.seq < seq then indexLoop entries seq fuel (mid + 1) hi
        else indexLoop entries seq fuel lo mid
    else -1 - lo

/-- `_index_of`: where the entry of a seq is, or -1 less where it would be. -/
def indexOf (entries : List PrefixListEntry) (seq : Nat) : Int :=
  indexLoop entries seq (entries.length + 1) 0 entries.length

/-- `_file`: into the bucket of the prefix, made when there is none. -/
def file (entry : PrefixListEntry) (trie : Trie (List PrefixListEntry)) :
    Trie (List PrefixListEntry) :=
  match trie.get entry.pfx with
  | none => ((trie.insert entry.pfx [entry]).map Prod.fst).getD trie
  | some bucket => trie.mutate entry.pfx (fileIn entry bucket)

/-- `_unfile`: out of the bucket, and the node with an emptied one. -/
def unfile (entry : PrefixListEntry) (trie : Trie (List PrefixListEntry)) :
    Trie (List PrefixListEntry) :=
  match trie.get entry.pfx with
  | none => trie
  | some bucket =>
    let trie := trie.mutate entry.pfx (bucket.erase entry)
    if bucket.erase entry = [] then (trie.remove entry.pfx).1 else trie

/-- `add` of an entry made; `none` is the `ValueError` of another family. -/
def add (l : FiledList) (entry : PrefixListEntry) : Option FiledList :=
  if entry.pfx.afi ≠ l.afi then none
  else
    let index := indexOf l.entries entry.seq
    let l :=
      if 0 ≤ index then
        { l with
          entries := l.entries.set index.toNat entry
          trie :=
            match l.entries[index.toNat]? with
            | none => l.trie
            | some old => unfile old l.trie }
      else { l with entries := l.entries.insertIdx (-1 - index).toNat entry }
    some { l with trie := file entry l.trie, version := l.version + 1 }

/-- `remove`. -/
def remove (l : FiledList) (seq : Nat) : FiledList :=
  let index := indexOf l.entries seq
  if index < 0 then l
  else
    { l with
      entries := l.entries.eraseIdx index.toNat
      trie :=
        match l.entries[index.toNat]? with
        | none => l.trie
        | some old => unfile old l.trie
      version := l.version + 1 }

/-- `clear`, with a fresh trie. -/
def clear (l : FiledList) : FiledList where
  afi := l.afi
  version := if l.entries.isEmpty then l.version else l.version + 1
  entries := []
  trie := (Trie.new l.afi).getD l.trie

/-- Whether an entry's window admits a length. -/
def admits (plen : Nat) (entry : PrefixListEntry) : Bool :=
  decide (entry.lo ≤ plen) && decide (plen ≤ entry.hi)

/-- Keep the entry of lower seq. -/
def better (best : Option PrefixListEntry) (entry : PrefixListEntry) : Option PrefixListEntry :=
  match best with
  | none => some entry
  | some held => if entry.seq < held.seq then some entry else best

/-- What a node's bucket leaves of the best so far. -/
def offered (plen : Nat) (node : TrieNode (List PrefixListEntry))
    (best : Option PrefixListEntry) : Option PrefixListEntry :=
  if node.isReal then
    match (node.value.getD []).find? (admits plen) with
    | none => best
    | some entry => better best entry
  else best

/-- The loop of `_lookup`. -/
def lookupLoop (trie : Trie (List PrefixListEntry)) (addr : Bytes) (plen : Nat) :
    Nat → Option NodeId → Option PrefixListEntry → Option PrefixListEntry
  | 0, _, best => best
  | _, none, best => best
  | fuel + 1, some n, best =>
    let node := trie.cell n
    if plen < node.plen then best
    else if !pfxMatch node.addr node.plen addr then best
    else
      let best := offered plen node best
      if node.plen = plen then best
      else lookupLoop trie addr plen fuel (node.child (pfxBit addr node.plen)) best

/-- `_lookup`. -/
def lookup (l : FiledList) (p : Prefix) : Option PrefixListEntry :=
  lookupLoop l.trie p.addr p.plen (l.trie.abits + 1) l.trie.root none

/-- `evaluate`: the action of the deciding entry, `none` for no match. -/
def evaluate (l : FiledList) (p : Prefix) : Option Action :=
  if p.afi ≠ l.afi then none else (l.lookup p).map PrefixListEntry.action

end FiledList

/-- What an index says of a seq: where its entry is, or between which entries it
belongs. -/
inductive Located (entries : List PrefixListEntry) (seq : Nat) : Int → Prop
  | found {i : Nat} {entry : PrefixListEntry} (hat : entries[i]? = some entry)
      (hseq : entry.seq = seq) : Located entries seq i
  | missing {i : Nat} (hi : i ≤ entries.length)
      (hlow : ∀ j entry, j < i → entries[j]? = some entry → entry.seq < seq)
      (hhigh : ∀ j entry, i ≤ j → entries[j]? = some entry → seq < entry.seq) :
      Located entries seq (-1 - i)

namespace FiledList

theorem indexLoop_located {entries : List PrefixListEntry} {seq : Nat}
    (h : Sequenced.Ascending PrefixListEntry.seq entries) {fuel lo hi : Nat}
    (hle : lo ≤ hi) (hhi : hi ≤ entries.length) (hfuel : hi - lo < fuel)
    (hlow : ∀ j entry, j < lo → entries[j]? = some entry → entry.seq < seq)
    (hhigh : ∀ j entry, hi ≤ j → entries[j]? = some entry → seq < entry.seq) :
    Located entries seq (indexLoop entries seq fuel lo hi) := by
  induction fuel generalizing lo hi with
  | zero => omega
  | succ fuel ih =>
    rw [indexLoop]
    by_cases hlt : lo < hi
    · have hmid : (lo + hi) / 2 < entries.length := by omega
      have hat := List.getElem?_eq_getElem hmid
      rw [if_pos hlt]
      simp only [hat]
      split
      · next hseq => exact .found hat hseq
      · next hne =>
          split
          · next hless =>
              -- Whatever stands before the middle is lower still.
              apply ih (by omega) hhi (by omega) _ hhigh
              intro j entry hj hentry
              rcases Nat.lt_or_eq_of_le (Nat.le_of_lt_succ hj) with hj | rfl
              · exact Nat.lt_trans (h.lt_of_getElem? hj hentry hat) hless
              · rw [hat, Option.some.injEq] at hentry
                exact hentry ▸ hless
          · next hge =>
              have hmore : seq < entries[(lo + hi) / 2].seq := by omega
              apply ih (by omega) (by omega) (by omega) hlow
              intro j entry hj hentry
              rcases Nat.lt_or_eq_of_le hj with hj | rfl
              · exact Nat.lt_trans hmore (h.lt_of_getElem? hj hat hentry)
              · rw [hat, Option.some.injEq] at hentry
                exact hentry ▸ hmore
    · have heq : lo = hi := by omega
      rw [if_neg hlt]
      exact .missing (heq ▸ hhi) hlow (heq ▸ hhigh)

theorem indexOf_located {entries : List PrefixListEntry}
    (h : Sequenced.Ascending PrefixListEntry.seq entries) (seq : Nat) :
    Located entries seq (indexOf entries seq) := by
  apply indexLoop_located h (Nat.zero_le _) (Nat.le_refl _) (by omega)
  · intro j entry hj
    omega
  · intro j entry hj hentry
    rw [List.getElem?_eq_none hj] at hentry
    exact absurd hentry (by simp)

theorem filter_of_missing {entries : List PrefixListEntry} {seq i : Nat}
    (hlow : ∀ j entry, j < i → entries[j]? = some entry → entry.seq < seq)
    (hhigh : ∀ j entry, i ≤ j → entries[j]? = some entry → seq < entry.seq) :
    entries.filter (fun e => e.seq ≠ seq) = entries := by
  apply List.filter_eq_self.mpr
  intro entry hmem
  obtain ⟨j, hj⟩ := List.getElem?_of_mem hmem
  apply decide_eq_true
  rcases Nat.lt_or_ge j i with hlt | hge
  · exact Nat.ne_of_lt (hlow j entry hlt hj)
  · exact Nat.ne_of_gt (hhigh j entry hge hj)

end FiledList

open Trie

/-- Changing a value in place is storing it. -/
theorem Trie.Represents.mutate {V : Type} {t : Trie V} {live : Finset NodeId} {d : Dict Prefix V}
    (h : t.Represents live d) {p : Prefix} {v₀ : V} (hheld : d.get? p = some v₀) (v : V) :
    (t.mutate p v).afi = t.afi ∧ (t.mutate p v).Represents live (d.set p v) := by
  have hafi : p.afi = t.afi := ((h.entries p v₀).mp hheld).1
  obtain ⟨hvalue, hfound⟩ := h.nodeExact_eq hafi
  cases hexact : t.nodeExact p.addr p.plen with
  | none =>
    rw [hexact, hheld] at hvalue
    exact absurd hvalue (by simp [nodeValue])
  | some n =>
    obtain ⟨hnode, -⟩ := hfound n hexact
    simp only [Trie.mutate, hexact]
    refine ⟨rfl, h.known, withValue_shaped h.shaped n _, ?_, ?_⟩
    · intro q w
      rw [stores_withValue h.shaped hafi hnode, Dict.get?_set]
      by_cases hq : q = p
      · rw [if_pos hq, if_pos hq]
      · rw [if_neg hq, if_neg hq]
        exact h.entries q w
    · rw [Dict.size_set, hheld]
      exact h.count

namespace FiledList

variable {trie : Trie (List PrefixListEntry)} {live : Finset NodeId}
  {d : Dict Prefix (List PrefixListEntry)}

theorem file_spec (h : trie.Represents live d) {entry : PrefixListEntry}
    (hafi : entry.pfx.afi = trie.afi) :
    (file entry trie).afi = trie.afi ∧
      ∃ live', (file entry trie).Represents live' (fileEntry entry d) := by
  rw [file, fileEntry, h.get_eq]
  cases hget : d.get? entry.pfx with
  | none =>
    obtain ⟨t', live', hinsert, hafi', h'⟩ := h.insert_spec hafi [entry]
    simp only [hinsert, Option.map_some, Option.getD_some]
    exact ⟨hafi', live', h'⟩
  | some bucket =>
    obtain ⟨hafi', h'⟩ := h.mutate hget (fileIn entry bucket)
    exact ⟨hafi', live, h'⟩

theorem unfile_spec (h : trie.Represents live d) (entry : PrefixListEntry) :
    (unfile entry trie).afi = trie.afi ∧
      ∃ live' d', (unfile entry trie).Represents live' d' ∧
        ∀ p, d'.get? p = (unfileEntry entry d).get? p := by
  rw [unfile, unfileEntry, h.get_eq]
  cases hget : d.get? entry.pfx with
  | none => exact ⟨rfl, live, d, h, fun _ => rfl⟩
  | some bucket =>
    obtain ⟨hafi, h'⟩ := h.mutate hget (bucket.erase entry)
    dsimp only
    by_cases hempty : bucket.erase entry = []
    · obtain ⟨-, hafi', live', h''⟩ := h'.remove_spec entry.pfx
      rw [if_pos hempty, if_pos hempty]
      refine ⟨hafi'.trans hafi, live', _, h'', ?_⟩
      intro p
      by_cases hp : p = entry.pfx <;> simp [hp]
    · rw [if_neg hempty, if_neg hempty]
      exact ⟨hafi, live, _, h', fun _ => rfl⟩

/-- The invariant: the entries ascend, and each stands in the bucket of its prefix. -/
structure Filed (l : FiledList) : Prop where
  ascending : Sequenced.Ascending PrefixListEntry.seq l.entries
  afi : l.trie.afi = l.afi
  known : pfxAddrLen l.afi ≠ 0
  buckets : ∃ live d, l.trie.Represents live d ∧ ∀ p, d.get? p = bucketOf l.entries p

theorem filed_fresh {afi : Nat} {trie : Trie (List PrefixListEntry)}
    (hnew : Trie.new afi = some trie) (version : Nat) : Filed ⟨afi, version, [], trie⟩ := by
  have hrep := Represents.new hnew
  have hafi : trie.afi = afi := by
    rw [Trie.new, Option.ite_none_left_eq_some, Option.some.injEq] at hnew
    rw [← hnew.2]
  exact ⟨List.Pairwise.nil, hafi, hafi ▸ hrep.known, ∅, Dict.empty, hrep, fun _ => rfl⟩

theorem Filed.new {afi : Nat} {l : FiledList} (hnew : FiledList.new afi = some l) :
    l.afi = afi ∧ l.entries = [] ∧ l.Filed := by
  obtain ⟨trie, htrie, rfl⟩ := Option.map_eq_some_iff.mp hnew
  exact ⟨rfl, rfl, filed_fresh htrie 0⟩

theorem Filed.unfile {l : FiledList} (h : l.Filed) {old : PrefixListEntry}
    (hold : old ∈ l.entries) :
    (FiledList.unfile old l.trie).afi = l.afi ∧
      ∃ live d, (FiledList.unfile old l.trie).Represents live d ∧
        ∀ p, d.get? p = bucketOf (l.entries.filter fun e => e.seq ≠ old.seq) p := by
  obtain ⟨live, d, hrep, hbuckets⟩ := h.buckets
  obtain ⟨hafi, live', d', hrep', hget⟩ := unfile_spec hrep old
  refine ⟨hafi.trans h.afi, live', d', hrep', ?_⟩
  intro p
  rw [hget, get?_unfileEntry h.ascending hbuckets hold]

/-- `add` of an entry of the family puts it in the place of its seq. -/
theorem Filed.add {l : FiledList} (h : l.Filed) {entry : PrefixListEntry}
    (hafi : entry.pfx.afi = l.afi) :
    ∃ l', l.add entry = some l' ∧ l'.afi = l.afi ∧ l'.Filed ∧
      l'.entries = Sequenced.insert PrefixListEntry.seq entry l.entries := by
  have hfiled : ∀ (trie : Trie (List PrefixListEntry)) live d,
      trie.afi = l.afi → trie.Represents live d →
      (∀ p, d.get? p = bucketOf (l.entries.filter fun e => e.seq ≠ entry.seq) p) →
      Filed ⟨l.afi, l.version + 1, Sequenced.insert PrefixListEntry.seq entry l.entries,
        file entry trie⟩ := by
    intro trie live d htrie hrep hbuckets
    obtain ⟨hafi', live', hrep'⟩ := file_spec hrep (hafi.trans htrie.symm)
    exact ⟨h.ascending.insert entry, hafi'.trans htrie, h.known, live', _, hrep',
      get?_fileEntry h.ascending hbuckets⟩
  have hlocated := indexOf_located h.ascending entry.seq
  rw [FiledList.add, if_neg (not_not_intro hafi)]
  generalize indexOf l.entries entry.seq = index at hlocated
  cases hlocated with
  | @found i old hat hseq =>
    obtain ⟨hafi', live, d, hrep, hbuckets⟩ := h.unfile (List.mem_of_getElem? hat)
    have hset := h.ascending.set_eq_insert hat hseq
    rw [hseq] at hbuckets
    simp only [Int.natCast_nonneg, ↓reduceIte, Int.toNat_natCast, hat, hset]
    exact ⟨_, rfl, rfl, hfiled _ live d hafi' hrep hbuckets, rfl⟩
  | @missing i hi hlow hhigh =>
    have hneg : ¬(0 : Int) ≤ -1 - i := by omega
    have hplace : (-1 - (-1 - (i : Int))).toNat = i := by omega
    have hinsert := Sequenced.insertIdx_eq_insert hi hlow hhigh
    have hkeep := filter_of_missing hlow hhigh
    obtain ⟨live, d, hrep, hbuckets⟩ := h.buckets
    simp only [hneg, ↓reduceIte, hplace, hinsert]
    exact ⟨_, rfl, rfl, hfiled _ live d h.afi hrep (hkeep.symm ▸ hbuckets), rfl⟩

/-- `remove` takes the entry of a seq out, if there is one. -/
theorem Filed.remove {l : FiledList} (h : l.Filed) (seq : Nat) :
    (l.remove seq).afi = l.afi ∧ (l.remove seq).Filed ∧
      (l.remove seq).entries = l.entries.filter fun e => e.seq ≠ seq := by
  have hlocated := indexOf_located h.ascending seq
  rw [FiledList.remove]
  generalize indexOf l.entries seq = index at hlocated
  cases hlocated with
  | @found i old hat hseq =>
    obtain ⟨hafi, live, d, hrep, hbuckets⟩ := h.unfile (List.mem_of_getElem? hat)
    have herase := h.ascending.eraseIdx_eq_filter hat
    have hpos : ¬(i : Int) < 0 := by omega
    rw [hseq] at hbuckets herase
    simp only [hpos, ↓reduceIte, Int.toNat_natCast, hat, herase]
    exact ⟨trivial, ⟨h.ascending.filter _, hafi, h.known, live, d, hrep, hbuckets⟩, trivial⟩
  | @missing i hi hlow hhigh =>
    have hneg : (-1 - i : Int) < 0 := by omega
    rw [if_pos hneg]
    exact ⟨rfl, h, (filter_of_missing hlow hhigh).symm⟩

theorem Filed.clear {l : FiledList} (h : l.Filed) :
    l.clear.afi = l.afi ∧ l.clear.Filed ∧ l.clear.entries = [] := by
  have hnew : Trie.new l.afi = some (⟨l.afi, none, ⟨0, fun _ => .blank [] 0⟩, 0, 0⟩ :
      Trie (List PrefixListEntry)) := by
    rw [Trie.new, if_neg h.known]
  refine ⟨rfl, ?_, rfl⟩
  rw [FiledList.clear, hnew]
  exact filed_fresh hnew _

end FiledList

end Packets
