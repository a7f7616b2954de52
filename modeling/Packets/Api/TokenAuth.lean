/-
The API's authentication policy (`TokenAuth` in `api/auth.py`) and its re-reading by request
threads (`ApiContext.current_auth` in `api/app.py`), one read or assignment at a time.
-/
import Packets.Api.Exposure

namespace Packets.TokenAuth

/-- Milliseconds between looks at a token file. -/
def TOKEN_RECHECK : Int := 1000

abbrev Text := List Char

/-- What `current_auth` reads of the `api` section. -/
structure Section where
  token : Option Text := none
  tokenFile : Option Text := none
  allowUnauthenticatedHealth : Bool := false
  maxPage : Option Nat := none
  maxBodyBytes : Option Nat := none
deriving DecidableEq

/-- Python's `x or None` of a text. -/
def orNone (x : Option Text) : Option Text := x.filter (· ≠ [])

/-- Whether the section asks for a token. -/
def Section.configures (sec : Section) : Bool :=
  (orNone sec.token).isSome || (orNone sec.tokenFile).isSome

/-- One version of a file; `text` is none if it cannot be read. -/
structure File where
  signature : Nat
  written : Int
  text : Option Text
deriving DecidableEq

/-- A `TokenAuth`, with the revision of the document it was made from. -/
structure Policy where
  token : Option Text
  allowUnauthenticatedHealth : Bool
  tokenFile : Option Text
  signature : Option Nat
  checked : Int
  reloads : Nat := 0
  revision : Nat
deriving DecidableEq

/-- The constructor, of a token and the signature of its file, if they are from one. -/
def Section.policy (sec : Section) (document : Nat) (now : Int) (signature : Option Nat)
    (token : Option Text) : Policy where
  token := token
  allowUnauthenticatedHealth := sec.allowUnauthenticatedHealth
  tokenFile := orNone sec.tokenFile
  signature := signature
  checked := now
  revision := document

/-- Where a thread is in `refresh`; `now` is what it read off the clock. -/
inductive Refresh
  | begun
  | timed (now : Int)
  | due (now : Int)
  | looking (now : Int)
  | saw (now : Int) (signature : Nat)
  | recording (now : Int) (signature : Nat)
  | reading (now : Int) (signature : Nat)
  | comparing (now : Int) (signature : Nat) (token : Text)
  | assigning (now : Int) (signature : Nat) (token : Text)
deriving DecidableEq

/-- Where a thread is in `current_auth`.  `revision` is what it read first, `document` the
revision of the section it was given. -/
inductive Pc
  | entered
  | compared (revision : Nat)
  | same
  | refreshing (p : Nat) (r : Refresh)
  | rereading (revision : Nat)
  | statting (revision document : Nat) (sec : Section)
  | reading (revision document : Nat) (sec : Section) (path : Text) (signature : Option Nat)
  | building (revision document : Nat) (sec : Section) (signature : Option Nat)
      (token : Option Text)
  | built (revision : Nat) (p : Nat) (sec : Section)
  | stored (revision : Nat) (sec : Section)
  | recording (revision : Nat)
  | leaving (failed : Bool)
  | answered (p : Nat) (failed : Bool)
deriving DecidableEq

/-- A request, with the revision in force when it began. -/
structure Request where
  born : Nat
  pc : Pc := .entered
deriving DecidableEq

/-- The `ApiContext`, what it reads, and the requests.  `policies` are the objects there
have been, `auth` which of them is in place. -/
structure Context where
  revision : Nat
  sec : Section
  files : List (Text × Option File)
  stamp : Nat
  now : Int
  policies : List Policy
  auth : Nat
  authRevision : Nat
  maxPage : Nat
  maxBodyBytes : Nat
  requests : List Request
deriving DecidableEq

namespace Context

variable (s : Context)

def file (path : Text) : Option File := (s.files.lookup path).join

/-- `_file_signature` -/
def fileSignature (path : Text) : Option Nat := (s.file path).map File.signature

/-- `_read_token_file`, none when it raises. -/
def readTokenFile (path : Text) : Option Text :=
  (s.file path).bind fun f => f.text.bind fun text => orNone (some (trim isSpace text))

/-- `TokenAuth.from_config`, with nothing in between. -/
def fromConfig (sec : Section) : Option Policy :=
  match orNone sec.tokenFile with
  | none => some (sec.policy s.revision s.now none (orNone sec.token))
  | some path =>
    (s.readTokenFile path).map fun token =>
      sec.policy s.revision s.now (s.fileSignature path) (some token)

end Context

/-- A step of `refresh` on a policy: the policy after it, and where the thread is then, if
still in it. -/
def Refresh.step (s : Context) (policy : Policy) : Refresh → Policy × Option Refresh
  | .begun =>
    match orNone policy.tokenFile with
    | none => (policy, none)
    | some _ => (policy, some (.timed s.now))
  | .timed now =>
    if now - policy.checked < TOKEN_RECHECK then (policy, none) else (policy, some (.due now))
  | .due now => ({ policy with checked := now }, some (.looking now))
  | .looking now =>
    match s.fileSignature (policy.tokenFile.getD []) with
    | none => (policy, none)
    | some signature => (policy, some (.saw now signature))
  | .saw now signature =>
    if policy.signature = some signature then (policy, none)
    else (policy, some (.recording now signature))
  | .recording now signature =>
    ({ policy with signature := some signature }, some (.reading now signature))
  | .reading now signature =>
    match s.readTokenFile (policy.tokenFile.getD []) with
    | none => (policy, none)
    | some token => (policy, some (.comparing now signature token))
  | .comparing now signature token =>
    if policy.token = some token then (policy, none)
    else (policy, some (.assigning now signature token))
  | .assigning _ _ token =>
    ({ policy with token := some token, reloads := policy.reloads + 1 }, none)

/-- A step of `current_auth`, from `from_config`'s look at the token file on; `none` where
it is over. -/
def Pc.step (s : Context) : Pc → Option (Context × Pc)
  | .entered => some (s, .compared s.revision)
  | .compared revision => some (s, if revision = s.authRevision then .same else .rereading revision)
  | .same => some (s, .refreshing s.auth .begun)
  | .refreshing p r =>
    s.policies[p]?.map fun policy =>
      ({ s with policies := s.policies.set p (r.step s policy).1 },
        (r.step s policy).2.elim (.leaving false) (.refreshing p))
  | .rereading revision => some (s, .statting revision s.revision s.sec)
  | .statting revision document sec =>
    match orNone sec.tokenFile with
    | none => some (s, .building revision document sec none (orNone sec.token))
    | some path => some (s, .reading revision document sec path (s.fileSignature path))
  | .reading revision document sec path signature =>
    match s.readTokenFile path with
    | none => some (s, .leaving true)
    | some token => some (s, .building revision document sec signature (some token))
  | .building revision document sec signature token =>
    some ({ s with policies := s.policies ++ [sec.policy document s.now signature token] },
      .built revision s.policies.length sec)
  | .built revision p sec => some ({ s with auth := p }, .stored revision sec)
  | .stored revision sec =>
    some ({ s with
      maxPage := (sec.maxPage.filter (· ≠ 0)).getD s.maxPage
      maxBodyBytes := (sec.maxBodyBytes.filter (· ≠ 0)).getD s.maxBodyBytes },
      .recording revision)
  | .recording revision => some ({ s with authRevision := revision }, .leaving false)
  | .leaving failed => some (s, .answered s.auth failed)
  | .answered _ _ => none

/-- `refuse` is a `bridge.call` that raises. -/
inductive Event
  | begin
  | step (i : Nat)
  | refuse (i : Nat)
  | commit (sec : Section)
  | rewrite (path : Text) (text : Option Text)
  | remove (path : Text)
  | tick (elapsed : Nat)

namespace Context

def step (s : Context) : Event → Option Context
  | .begin => some { s with requests := s.requests ++ [{ born := s.revision }] }
  | .step i => do
    let r ← s.requests[i]?
    let (s', pc) ← r.pc.step s
    pure { s' with requests := s.requests.set i { r with pc := pc } }
  | .refuse i => do
    let r ← s.requests[i]?
    match r.pc with
    | .rereading _ => pure { s with requests := s.requests.set i { r with pc := .leaving true } }
    | _ => none
  | .commit sec => some { s with revision := s.revision + 1, sec := sec }
  | .rewrite path text =>
    some { s with
      files := (path, some ⟨s.stamp, s.now, text⟩) :: s.files
      stamp := s.stamp + 1 }
  | .remove path => some { s with files := (path, none) :: s.files }
  | .tick elapsed => some { s with now := s.now + elapsed }

def run (s : Context) (events : List Event) : Option Context := events.foldlM step s

end Context

end Packets.TokenAuth
