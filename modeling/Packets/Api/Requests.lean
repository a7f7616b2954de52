/-
Configuration requests (`api/routes_config.py`, `Engine._apply`) and the merge of a PATCH.

A request reads the running document on the loop, redacted, decides on its own thread, and
writes on the loop.  Requests whose trip times out are left out.
-/
import Packets.Config.Fields

namespace Packets

mutual

/-- `_deep_merge`: merge a patch into the fields of an object. -/
def deepMerge (merged : List (String × Json)) : List (String × Json) → List (String × Json)
  | [] => merged
  | (key, value) :: rest => deepMerge (mergeKey merged key value) rest

/-- The body of `_deep_merge` for one key: null removes it, an object merges into an
object, anything else replaces. -/
def mergeKey (merged : List (String × Json)) (key : String) : Json → List (String × Json)
  | .null => eraseField key merged
  | .dict fields =>
    match merged.lookup key with
    | some (.dict sub) => Dict.setEntries key (.dict (deepMerge sub fields)) merged
    | _ => Dict.setEntries key (.dict fields) merged
  | value => Dict.setEntries key value merged

end

mutual

theorem wellKeyed_deepMerge {merged patch : List (String × Json)}
    (hm : (Json.dict merged).WellKeyed) (hp : ∀ e ∈ patch, e.2.WellKeyed) :
    (Json.dict (deepMerge merged patch)).WellKeyed := by
  match patch with
  | [] => exact hm
  | (key, value) :: rest =>
    rw [deepMerge]
    have hfirst := wellKeyed_mergeKey hm key (hp _ List.mem_cons_self)
    exact wellKeyed_deepMerge hfirst fun e he => hp e (List.mem_cons_of_mem _ he)

theorem wellKeyed_mergeKey {merged : List (String × Json)}
    (hm : (Json.dict merged).WellKeyed) (key : String) {value : Json}
    (hvalue : value.WellKeyed) : (Json.dict (mergeKey merged key value)).WellKeyed := by
  match value with
  | .null => exact wellKeyed_eraseField hm key
  | .dict fields =>
    rw [mergeKey]
    split
    · next sub hsub =>
      apply wellKeyed_setEntries hm
      apply wellKeyed_deepMerge (wellKeyed_of_lookup hm hsub)
      exact (wellKeyed_dict_iff.mp hvalue).2
    · exact wellKeyed_setEntries hm key hvalue
  | .bool _ | .int _ | .float _ | .str _ | .list _ => exact wellKeyed_setEntries hm key hvalue

end

theorem wellKeyed_fillNode {g : Json → Path → Json}
    (hg : ∀ value path, value.WellKeyed → (g value path).WellKeyed) (n : Node) {doc : Json}
    (hdoc : doc.WellKeyed) (path : Path) : (fillNode g n doc path).WellKeyed := by
  induction n using Node.byLookup generalizing doc path with
  | fixed keys ih =>
    cases doc with
    | dict fields =>
      rw [wellKeyed_dict_iff] at hdoc
      rw [fillNode, wellKeyed_dict_iff]
      refine ⟨by rw [List.map_map]; exact hdoc.1, ?_⟩
      intro x hx
      obtain ⟨e, he, rfl⟩ := List.mem_map.mp hx
      simp only [fillKey_eq]
      cases hlook : keys.lookup e.1 with
      | none => exact hdoc.2 e he
      | some node =>
        by_cases hsecret : node.isSecret = true
        · simpa [hsecret] using hg _ _ (hdoc.2 e he)
        · simpa [hsecret] using ih e.1 node hlook (hdoc.2 e he) _
    | _ => exact hdoc
  | keyed _ _ value ih | list value ih =>
    cases doc with
    | dict fields =>
      rw [wellKeyed_dict_iff] at hdoc
      rw [fillNode, wellKeyed_dict_iff]
      refine ⟨by rw [List.map_map]; exact hdoc.1, ?_⟩
      intro x hx
      obtain ⟨e, he, rfl⟩ := List.mem_map.mp hx
      exact ih (hdoc.2 e he) _
    | _ => exact hdoc
  | _ => exact hdoc

/-- A key names what the URL names: as written, or spelled another way. -/
def spells (wanted key : String) : Bool :=
  match parsePrefix key with
  | none => false
  | some p => p.toStr = wanted || p.addrText = wanted

/-- `match_key`: the key of a section that names the same thing. -/
def matchKey (fields : List (String × Json)) (wanted : String) : String :=
  if (fields.lookup wanted).isSome then wanted
  else ((fields.map Prod.fst).find? (spells wanted)).getD wanted

/-- `_stored_path`, from a node that may be absent or no object. -/
def storedPath : Option Json → Path → Path
  | some (.dict fields), key :: rest =>
    matchKey fields key :: storedPath (fields.lookup (matchKey fields key)) rest
  | _, path => path

/-- A document, or the body of a request. -/
abbrev Doc := { j : Json // j.WellKeyed }

/-- The key `_stored_path` goes by is `str` of a URL variable. -/
inductive Ask where
  | put (path : Path) (value : Doc)
  | patch (path : Path) (body : Doc)
  | delete (path : Path)
  /-- `PATCH /ip/route/install` -/
  | patchInstall (body : Doc)

structure Request where
  ask : Ask
  /-- `if_match_revision` -/
  ifMatch : Option Int

/-- What the second trip is handed. -/
inductive Write where
  | set (path : Path) (value : Doc)
  | unset (path : Path)

inductive ApiError where
  | notAnObject
  | notFound (path : Path)
  | notASection (path : Path)
  | unknownSettings (keys : List String)
  | preconditionFailed (expected : Int) (actual : Nat)
  | config (error : ConfigError)
  | applyFailed

/-- `_merge`, once the document has been read. -/
def planMerge (document : Doc) (path : Path) (body : Doc) : Except ApiError Write :=
  match hbody : body.1 with
  | .dict patch =>
    let actual := storedPath (some document.1) path
    match hget : getPath document.1 actual with
    | none => .error (.notFound actual)
    | some (.dict current) =>
      .ok (.set actual ⟨.dict (deepMerge current patch),
        wellKeyed_deepMerge (wellKeyed_getPath document.2 hget)
          (wellKeyed_dict_iff.mp (hbody ▸ body.2)).2⟩)
    | some _ => .error (.notASection actual)
  | _ => .error .notAnObject

def INSTALL_KEYS : List String :=
  ["install", "table", "protocol", "priority", "retain-on-shutdown", "kernel-import",
    "validate-next-hop"]

def IP_ROUTE : Path := ["ip", "route"]

/-- The settings merged, and the static routes put back as they were read. -/
def mergeInstall (current patch : List (String × Json)) : List (String × Json) :=
  let merged := deepMerge (eraseField "static" current) patch
  match current.lookup "static" with
  | none => merged
  | some statics => Dict.setEntries "static" statics merged

theorem wellKeyed_mergeInstall {current patch : List (String × Json)}
    (hcurrent : (Json.dict current).WellKeyed) (hpatch : (Json.dict patch).WellKeyed) :
    (Json.dict (mergeInstall current patch)).WellKeyed := by
  have hmerged := wellKeyed_deepMerge (wellKeyed_eraseField hcurrent "static")
    (wellKeyed_dict_iff.mp hpatch).2
  rw [mergeInstall]
  split
  · exact hmerged
  · next statics hstatics =>
    exact wellKeyed_setEntries hmerged "static" (wellKeyed_of_lookup hcurrent hstatics)

/-- The settings object of a document, empty when there is none.  The schema allows
nothing but an object there. -/
def installFields (document : Json) : List (String × Json) :=
  match getPath document IP_ROUTE with
  | some (.dict fields) => fields
  | _ => []

theorem wellKeyed_installFields (document : Doc) :
    (Json.dict (installFields document.1)).WellKeyed := by
  rw [installFields]
  split
  · next fields hget => exact wellKeyed_getPath document.2 hget
  · simp [wellKeyed_dict_iff]

/-- `patch_install`, once the document has been read. -/
def planInstall (document body : Doc) : Except ApiError Write :=
  match hbody : body.1 with
  | .dict patch =>
    let unknown := (patch.map Prod.fst).filter fun key => !INSTALL_KEYS.contains key
    if unknown ≠ [] then .error (.unknownSettings (unknown.insertionSort (· ≤ ·)))
    else
      .ok (.set IP_ROUTE ⟨.dict (mergeInstall (installFields document.1) patch),
        wellKeyed_mergeInstall (wellKeyed_installFields document) (hbody ▸ body.2)⟩)
  | _ => .error .notAnObject

/-- What a request is to write, from the document it read. -/
def plan (document : Doc) : Ask → Except ApiError Write
  | .put path value => .ok (.set (storedPath (some document.1) path) value)
  | .patch path body => planMerge document path body
  | .delete path =>
    let actual := storedPath (some document.1) path
    match getPath document.1 actual with
    | none => .error (.notFound actual)
    | some _ => .ok (.unset actual)
  | .patchInstall body => planInstall document body

namespace ConfigStore

/-- A proposal that may become the running document. -/
structure Accepts (store : ConfigStore) (fields : List (String × Json)) : Prop where
  wellKeyed : (Json.dict fields).WellKeyed
  valid : Node.validate store.schema.root (.dict fields) [] = .ok ()

/-- `commit`, without the revision. -/
def commit (store : ConfigStore) (fields : List (String × Json))
    (h : store.Accepts fields) : ConfigStore :=
  { store with fields := fields, wellKeyed := h.wellKeyed, valid := h.valid }

def propose (store : ConfigStore) : Write → Except ConfigError Json
  | .set path value => store.proposeSet path value.1
  | .unset path => store.proposeDelete path

theorem wellKeyed_keptStored (store : ConfigStore) (value : Json) (path : Path)
    (h : value.WellKeyed) : (kept store.stored value path).WellKeyed := by
  rw [kept, keepStored]
  split
  · next found hfound =>
    split at hfound
    · split at hfound
      · exact absurd hfound (by simp [fail])
      · next existing hget =>
        split at hfound
        · exact absurd hfound (by simp [fail])
        · cases hfound
          exact wellKeyed_getPath store.wellKeyed hget
    · cases hfound
      exact h
  · exact h

/-- Resolving leaves an object with its keys named once. -/
theorem resolveSecrets_dict {store : ConfigStore} {fields : List (String × Json)}
    (h : (Json.dict fields).WellKeyed) {proposed : Json}
    (hresolve : resolveSecrets store.schema store.stored (.dict fields) = .ok proposed) :
    ∃ fields', proposed = .dict fields' ∧ (Json.dict fields').WellKeyed := by
  have hall : ∀ x ∈ covered store.schema.root (.dict fields) [],
      ∃ value, keepStored store.stored x.2 x.1 = .ok value := by
    intro x hx
    cases hkeep : keepStored store.stored x.2 x.1 with
    | ok value => exact ⟨value, rfl⟩
    | error e =>
      obtain ⟨e', he'⟩ := resolveSecrets_error hx ⟨e, hkeep⟩
      exact absurd (hresolve.symm.trans he') (by simp)
  rw [resolveSecrets_ok hall, Except.ok.injEq] at hresolve
  rw [← hresolve]
  have hkeyed := wellKeyed_fillNode store.wellKeyed_keptStored store.schema.root h []
  rw [fillNode_dict] at hkeyed ⊢
  exact ⟨_, rfl, hkeyed⟩

/-- Every proposal is an object that may become the running document. -/
theorem propose_accepts {store : ConfigStore} {write : Write} {proposed : Json}
    (h : store.propose write = .ok proposed) :
    ∃ fields, proposed = .dict fields ∧ store.Accepts fields := by
  cases write with
  | set path value =>
    rw [propose, proposeSet] at h
    cases hset : setPath store.fields path value.1 [] with
    | error e => simp [hset, bind, Except.bind] at h
    | ok fields =>
      have hkeyed := wellKeyed_setPath store.wellKeyed value.2 hset
      rw [hset] at h
      change store.accept (.dict fields) = .ok proposed at h
      rw [accept] at h
      cases hresolve : resolveSecrets store.schema store.stored (.dict fields) with
      | error e => simp [hresolve, bind, Except.bind] at h
      | ok resolved =>
        obtain ⟨fields', rfl, hkeyed'⟩ := resolveSecrets_dict hkeyed hresolve
        rw [hresolve] at h
        cases hvalid : Node.validate store.schema.root (.dict fields') [] with
        | error e => simp [hvalid, bind, Except.bind] at h
        | ok done =>
          simp only [hvalid, bind, Except.bind, pure, Except.pure, Except.ok.injEq] at h
          exact ⟨fields', h.symm, hkeyed', hvalid⟩
  | unset path =>
    rw [propose, proposeDelete] at h
    split at h
    · exact absurd h (by simp [fail])
    cases hdel : delPath store.fields path with
    | none => simp [hdel, fail] at h
    | some fields =>
      have hkeyed := wellKeyed_delPath store.wellKeyed hdel
      rw [hdel] at h
      cases hvalid : Node.validate store.schema.root (.dict fields) [] with
      | error e => simp [hvalid, bind, Except.bind] at h
      | ok done =>
        simp only [hvalid, bind, Except.bind, pure, Except.pure, Except.ok.injEq] at h
        exact ⟨fields, h.symm, hkeyed, hvalid⟩

/-- The fields of a proposal. -/
def proposedFields : Json → List (String × Json)
  | .dict fields => fields
  | _ => []

theorem accepts_proposedFields {store : ConfigStore} {write : Write} {proposed : Json}
    (h : store.propose write = .ok proposed) : store.Accepts (proposedFields proposed) := by
  obtain ⟨fields, rfl, haccepts⟩ := propose_accepts h
  exact haccepts

/-- What `get` and the API read: the document redacted. -/
def shown (store : ConfigStore) : Doc :=
  ⟨store.document true, by
    rw [document_true, shownFields, ← fillNode_dict]
    refine wellKeyed_fillNode (fun value _ h => ?_) store.schema.root store.wellKeyed []
    cases value with
    | str s => trivial
    | _ => exact h⟩

/-- The document itself. -/
def whole (store : ConfigStore) : Doc := ⟨store.stored, store.wellKeyed⟩

/-- `_apply` where every plugin and the core commit: a proposal without changes leaves
the document. -/
def settle (store : ConfigStore) (write : Write) : Except ConfigError (Option ConfigStore) :=
  match h : store.propose write with
  | .error e => .error e
  | .ok proposed =>
    if (store.diff proposed).isEmpty then .ok none
    else .ok (some (store.commit (proposedFields proposed) (accepts_proposedFields h)))

end ConfigStore

/-- The engine's store and its revision. -/
structure Running where
  store : ConfigStore
  revision : Nat

/-- `_do_configure` and `_do_unconfigure`.  `accepted` says whether the plugins and the
core took the change; what they took before one refused is handed back. -/
def Running.configure (r : Running) (write : Write) (ifMatch : Option Int)
    (accepted : Bool) : Except ApiError Running :=
  match ifMatch.filter fun expected => expected ≠ (r.revision : Int) with
  | some expected => .error (.preconditionFailed expected r.revision)
  | none =>
    match r.store.settle write with
    | .error e => .error (.config e)
    | .ok none => .ok r
    | .ok (some store) => if accepted then .ok ⟨store, r.revision + 1⟩ else .error .applyFailed

/-- A request between its trips: the document and the revision it read. -/
structure Pending where
  request : Request
  seen : Doc
  seenAt : Nat
  write : Write

/-- The engine, the requests between their trips by thread, and those answered success so far, in
the order of their second trips. -/
structure Api where
  running : Running
  pending : Dict Nat Pending
  answered : List Request

inductive Trip where
  | read (thread : Nat) (request : Request)
  | write (thread : Nat) (accepted : Bool)

namespace Api

/-- One trip to the loop.  A thread whose request was refused on the way has none. -/
def step (s : Api) : Trip → Api
  | .read thread request =>
    match plan s.running.store.shown request.ask with
    | .error _ => s
    | .ok write =>
      let p : Pending := ⟨request, s.running.store.shown, s.running.revision, write⟩
      { s with pending := s.pending.set thread p }
  | .write thread accepted =>
    match s.pending.get? thread with
    | none => s
    | some p =>
      match s.running.configure p.write p.request.ifMatch accepted with
      | .error _ => { s with pending := s.pending.erase thread }
      | .ok running =>
        { running := running
          pending := s.pending.erase thread
          answered := s.answered ++ [p.request] }

def run (s : Api) (trips : List Trip) : Api := trips.foldl step s

/-- An engine nothing was asked of yet. -/
def start (store : ConfigStore) : Api := ⟨⟨store, 0⟩, Dict.empty, []⟩

end Api

end Packets
