/-
Prefix-lists (`policy/prefixlist.pyx`).

The entries ascend by `seq` and are filed a second time under their prefix; a lookup visits the
buckets of the prefixes that cover the candidate, shortest first.
-/
import Packets.Config.Json
import Packets.Lib.Dict
import Packets.Lib.Sequenced
import Packets.Rib.Address

namespace Packets

inductive Action where
  | deny
  | permit
deriving DecidableEq, Repr

/-- `action_id`: the word an operator wrote or the integer it maps to. -/
def actionId : Json → Option Action
  | .str "permit" => some .permit
  | .str "deny" => some .deny
  | .int 0 => some .deny
  | .int 1 => some .permit
  | _ => none

def MAX_SEQ : Int := 0xffffffff

/-- `seq_number`: a 32-bit sequence number. -/
def seqNumber (j : Json) : Option Nat := j.intIn? 0 MAX_SEQ

structure PrefixListEntry where
  seq : Nat
  action : Action
  pfx : Prefix
  /-- The inclusive window of lengths an entry admits. -/
  lo : Nat
  hi : Nat
deriving DecidableEq

/-- The constructor of an entry.  A bound of 0 is one not configured; `none` is
its `ValueError`. -/
def PrefixListEntry.new (seq action pfx le ge : Json) : Option PrefixListEntry := do
  let p ← pfx.str?.bind parsePrefix
  let abits := pfxAddrBits p.afi
  let le ← le.intIn? 0 abits
  let ge ← ge.intIn? 0 abits
  if le ≠ 0 ∧ le < p.plen then none
  else if ge ≠ 0 ∧ ge < p.plen then none
  else if le ≠ 0 ∧ ge ≠ 0 ∧ ge > le then none
  else do
    let seq ← seqNumber seq
    let action ← actionId action
    some {
      seq := seq
      action := action
      pfx := p
      lo := if ge ≠ 0 then ge else p.plen
      hi := if le ≠ 0 then le else if ge ≠ 0 then abits else p.plen }

/-- The entries on one prefix, `none` when there are none. -/
def bucketOf (entries : List PrefixListEntry) (p : Prefix) : Option (List PrefixListEntry) :=
  let bucket := entries.filter fun e => e.pfx = p
  if bucket = [] then none else some bucket

/-- `_file` within a bucket: before the first entry of a higher seq. -/
def fileIn (entry : PrefixListEntry) : List PrefixListEntry → List PrefixListEntry
  | [] => [entry]
  | other :: rest =>
    if other.seq > entry.seq then entry :: other :: rest
    else other :: fileIn entry rest

theorem fileIn_eq_insert {entry : PrefixListEntry} {bucket : List PrefixListEntry}
    (h : ∀ e ∈ bucket, e.seq ≠ entry.seq) :
    fileIn entry bucket = Sequenced.insert PrefixListEntry.seq entry bucket := by
  induction bucket with
  | nil => rfl
  | cons other rest ih =>
    have hne := h other List.mem_cons_self
    rw [fileIn, Sequenced.insert_cons, if_neg hne,
      ih fun e he => h e (List.mem_cons_of_mem other he)]

/-- `_file`: index an entry under its prefix. -/
def fileEntry (entry : PrefixListEntry) (index : Dict Prefix (List PrefixListEntry)) :
    Dict Prefix (List PrefixListEntry) :=
  match index.get? entry.pfx with
  | none => index.set entry.pfx [entry]
  | some bucket => index.set entry.pfx (fileIn entry bucket)

/-- `_unfile`: remove an entry from its bucket, dropping an emptied one. -/
def unfileEntry (entry : PrefixListEntry) (index : Dict Prefix (List PrefixListEntry)) :
    Dict Prefix (List PrefixListEntry) :=
  match index.get? entry.pfx with
  | none => index
  | some bucket =>
    if bucket.erase entry = [] then index.erase entry.pfx
    else index.set entry.pfx (bucket.erase entry)

theorem get?_unfileEntry {entries : List PrefixListEntry}
    {index : Dict Prefix (List PrefixListEntry)} {entry : PrefixListEntry}
    (hasc : Sequenced.Ascending PrefixListEntry.seq entries)
    (hfiled : ∀ p, index.get? p = bucketOf entries p) (hmem : entry ∈ entries) (p : Prefix) :
    (unfileEntry entry index).get? p = bucketOf (entries.filter fun e => e.seq ≠ entry.seq) p := by
  have hcomm : ∀ q, (entries.filter fun e => e.seq ≠ entry.seq).filter
      (fun e => e.pfx = q) =
        (entries.filter fun e => e.pfx = q).filter fun e => e.seq ≠ entry.seq :=
    fun q => List.filter_comm _ _ _
  have hbucket : (entries.filter fun e => e.pfx = entry.pfx).erase entry =
      (entries.filter fun e => e.pfx = entry.pfx).filter fun e => e.seq ≠ entry.seq :=
    Sequenced.Ascending.erase_eq_filter (List.Pairwise.filter _ hasc)
      (List.mem_filter.mpr ⟨hmem, by simp⟩)
  have hne : entries.filter (fun e => e.pfx = entry.pfx) ≠ [] :=
    List.ne_nil_of_mem (List.mem_filter.mpr ⟨hmem, by simp⟩)
  have hget : index.get? entry.pfx = some (entries.filter fun e => e.pfx = entry.pfx) := by
    rw [hfiled, bucketOf]
    exact if_neg hne
  by_cases hp : p = entry.pfx
  · subst hp
    unfold unfileEntry
    rw [hget]
    simp only [bucketOf, hcomm, hbucket]
    split <;> simp
  · have hother : (unfileEntry entry index).get? p = index.get? p := by
      unfold unfileEntry
      rw [hget]
      dsimp only
      split <;> simp [hp]
    have hkeep : (entries.filter fun e => e.pfx = p).filter
        (fun e => e.seq ≠ entry.seq) = entries.filter fun e => e.pfx = p := by
      apply List.filter_eq_self.mpr
      intro e he
      obtain ⟨hmem', hpfx⟩ := List.mem_filter.mp he
      simp only [ne_eq, decide_eq_true_eq]
      intro hseq
      have heq := hasc.eq_of_seq_eq hmem' hmem hseq
      rw [heq] at hpfx
      exact hp (of_decide_eq_true hpfx).symm
    rw [hother, hfiled, bucketOf, bucketOf, hcomm, hkeep]

theorem get?_fileEntry {entries : List PrefixListEntry}
    {index : Dict Prefix (List PrefixListEntry)} {entry : PrefixListEntry}
    (hasc : Sequenced.Ascending PrefixListEntry.seq entries)
    (hfiled : ∀ p, index.get? p = bucketOf (entries.filter fun e => e.seq ≠ entry.seq) p)
    (p : Prefix) :
    (fileEntry entry index).get? p =
      bucketOf (Sequenced.insert PrefixListEntry.seq entry entries) p := by
  have hcomm : ∀ q, (entries.filter fun e => e.seq ≠ entry.seq).filter
      (fun e => e.pfx = q) =
        (entries.filter fun e => e.pfx = q).filter fun e => e.seq ≠ entry.seq :=
    fun q => List.filter_comm _ _ _
  have hget := hfiled p
  rw [bucketOf, hcomm] at hget
  rw [bucketOf, Sequenced.filter_insert _ _ hasc]
  by_cases hp : entry.pfx = p
  · rw [← hp] at hget ⊢
    simp only [decide_true, ↓reduceIte]
    rw [if_neg (Sequenced.insert_ne_nil entry _)]
    unfold fileEntry
    split at hget
    · rename_i hnil
      rw [hget]
      simp only [Dict.get?_set, ↓reduceIte]
      rw [hnil]
      rfl
    · rw [hget]
      simp only [Dict.get?_set, ↓reduceIte]
      rw [fileIn_eq_insert]
      intro e he
      simpa using (List.mem_filter.mp he).2
  · have hne : p ≠ entry.pfx := fun h => hp h.symm
    have hother : (fileEntry entry index).get? p = index.get? p := by
      unfold fileEntry
      split <;> simp [hne]
    rw [hother, hget]
    simp [hp]

structure PrefixList where
  afi : Nat
  version : Nat
  entries : List PrefixListEntry
  index : Dict Prefix (List PrefixListEntry)
  ascending : Sequenced.Ascending PrefixListEntry.seq entries
  filed : ∀ p, index.get? p = bucketOf entries p

namespace PrefixList

@[ext] theorem ext' {l l' : PrefixList} (hafi : l.afi = l'.afi)
    (hversion : l.version = l'.version) (hentries : l.entries = l'.entries)
    (hindex : l.index = l'.index) : l = l' := by
  cases l
  cases l'
  simp_all

def new (afi : Nat) : PrefixList where
  afi := afi
  version := 0
  entries := []
  index := Dict.empty
  ascending := List.Pairwise.nil
  filed _ := rfl

/-- The index without the entry that holds a seq, if one does. -/
def unfileSeq (l : PrefixList) (seq : Nat) : Dict Prefix (List PrefixListEntry) :=
  match l.entries.find? fun e => e.seq = seq with
  | some old => unfileEntry old l.index
  | none => l.index

theorem get?_unfileSeq (l : PrefixList) (seq : Nat) (p : Prefix) :
    (l.unfileSeq seq).get? p = bucketOf (l.entries.filter fun e => e.seq ≠ seq) p := by
  unfold unfileSeq
  split
  · rename_i old hold
    have hseq : old.seq = seq := by simpa using List.find?_some hold
    rw [get?_unfileEntry l.ascending l.filed (List.mem_of_find?_eq_some hold), hseq]
  · rename_i hnone
    have hkeep : l.entries.filter (fun e => e.seq ≠ seq) = l.entries := by
      apply List.filter_eq_self.mpr
      intro e he
      simpa using List.find?_eq_none.mp hnone e he
    rw [l.filed, hkeep]

/-- `add`: the binary search finds the place of a seq in the ascending entries.
`none` is the `ValueError` of a prefix of another family. -/
def add (l : PrefixList) (entry : PrefixListEntry) : Option PrefixList :=
  if entry.pfx.afi ≠ l.afi then none
  else
    some {
      afi := l.afi
      version := l.version + 1
      entries := Sequenced.insert PrefixListEntry.seq entry l.entries
      index := fileEntry entry (l.unfileSeq entry.seq)
      ascending := l.ascending.insert entry
      filed := get?_fileEntry l.ascending (l.get?_unfileSeq entry.seq) }

/-- `clear`: drop every entry, keeping the version line. -/
def clear (l : PrefixList) : PrefixList where
  afi := l.afi
  version := if l.entries.isEmpty then l.version else l.version + 1
  entries := []
  index := Dict.empty
  ascending := List.Pairwise.nil
  filed _ := rfl

/-- The prefix of a given length that covers a prefix. -/
def coverAt (p : Prefix) (plen : Nat) : Option Prefix := Prefix.new p.afi plen p.addr

/-- `_lookup`: the entry of lowest seq among those whose prefix covers the
candidate and whose window admits its length. -/
def lookup (l : PrefixList) (p : Prefix) : Option PrefixListEntry :=
  (List.range (p.plen + 1)).foldl
    (fun best plen =>
      match ((coverAt p plen).bind l.index.get?).bind
          fun bucket => bucket.find? fun e => e.lo ≤ p.plen && p.plen ≤ e.hi with
      | none => best
      | some entry =>
        match best with
        | none => some entry
        | some held => if entry.seq < held.seq then some entry else best) none

/-- `evaluate`: the action of the deciding entry, `none` for no match. -/
def evaluate (l : PrefixList) (p : Prefix) : Option Action :=
  if p.afi ≠ l.afi then none else (l.lookup p).map PrefixListEntry.action

def permits (l : PrefixList) (p : Prefix) : Bool := l.evaluate p == some .permit

end PrefixList

end Packets
