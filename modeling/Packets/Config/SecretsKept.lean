/-
Secrets do not leave, and survive a round trip, wherever the walk over secret places goes.

The schema is the core's own sections (`config.py`); the `default` of a node is left out.
-/
import Packets.Config.RoundTrip

namespace Packets

theorem mem_inKeyOrder {parts : List (String × List Change)} {c : Change} :
    c ∈ inKeyOrder parts ↔ ∃ part ∈ parts, c ∈ part.2 := by
  rw [inKeyOrder, List.mem_flatMap]
  simp only [(List.perm_insertionSort _ parts).mem_iff]

theorem lookup_mem {fields : List (String × Json)} {key : String} {value : Json}
    (h : fields.lookup key = some value) : (key, value) ∈ fields := by
  induction fields with
  | nil => simp at h
  | cons e rest ih =>
    obtain ⟨k, v⟩ := e
    by_cases hk : key = k
    · subst hk
      simp only [List.lookup_cons, beq_self_eq_true, Option.some.injEq] at h
      rw [h]
      exact List.mem_cons_self
    · rw [List.lookup_cons, beq_eq_false_iff_ne.mpr hk] at h
      exact List.mem_cons_of_mem _ (ih h)

/-- Documents that differ only in non-empty secrets leave the store alike, a redacted document
written back is the stored one, and a placeholder is refused where nothing is stored: each
exactly where no secret is out of the walk's reach, and no stored secret is the placeholder. -/
theorem secrets_kept (store : ConfigStore) :
    (∀ other : ConfigStore, other.schema = store.schema →
      mask store.schema.root store.stored = mask store.schema.root other.stored →
      (store.document true = other.document true ↔
        exposed store.schema.root store.stored [] = exposed store.schema.root other.stored [])) ∧
    (∀ v w : Json, mask store.schema.root v = mask store.schema.root w →
      (redactedCopy store.schema v = redactedCopy store.schema w ↔
        exposed store.schema.root v [] = exposed store.schema.root w [])) ∧
    (∀ c d : List Change, c.map (Change.mask store.schema) = d.map (Change.mask store.schema) →
      (redactedChanges store.schema c = redactedChanges store.schema d ↔
        c.map (Change.exposed store.schema) = d.map (Change.exposed store.schema))) ∧
    (store.RoundTrips ↔ ∀ x ∈ covered store.schema.root store.stored [], x.2 ≠ .str REDACTED) ∧
    (∀ fields, ((∃ x ∈ secrets store.schema.root (.dict fields) [], store.Unstored x) →
        ∃ e, store.proposeReplace (.dict fields) = .error e) ↔
      ((∃ x ∈ exposed store.schema.root (.dict fields) [], store.Unstored x) →
        (∃ x ∈ covered store.schema.root (.dict fields) [], store.Unresolvable x) ∨
          ∃ e, Node.validate store.schema.root
            (fillNode (kept store.stored) store.schema.root (.dict fields) []) [] = .error e)) := by
  refine ⟨?_, fun v w hm => redactedCopy_iff store.schema hm,
    fun c d hm => redactedChanges_iff store.schema hm, store.roundTrips_iff,
    store.refuses_unstored_iff⟩
  intro other hschema hm
  rw [ConfigStore.document, ConfigStore.document, if_pos rfl, if_pos rfl, hschema]
  exact redactedCopy_iff store.schema hm

/-- A schema with a list of secrets, of the kind `secret_paths` walks into. -/
def keyChain : Schema where
  root := .fixed (.cons "key-chain" false (.list (.secret {})) .nil)
  wellKeyed := ⟨by simp [Keys.names], trivial, trivial⟩

def keyChainDocument (key : String) : Json := .dict [("key-chain", .list [.str key])]

/-- Two valid documents that differ in a secret's value alone leave the store unalike. -/
theorem not_secrets_kept : ¬ ∀ (schema : Schema) (v w : Json),
    Node.validate schema.root v [] = .ok () → Node.validate schema.root w [] = .ok () →
    mask schema.root v = mask schema.root w →
    redactedCopy schema v = redactedCopy schema w := by
  intro h
  have hsame := h keyChain (keyChainDocument "a") (keyChainDocument "b") rfl rfl rfl
  have hshown : ∀ key, redactedCopy keyChain (keyChainDocument key) = keyChainDocument key :=
    fun key => rfl
  rw [hshown, hshown] at hsame
  simp [keyChainDocument] at hsame

def choice (choices : List String) : Node := .str { choices := some choices }

def uint32 : Node := .int (some 0) (some 4294967295)

def prefixListEntrySchema : Node :=
  .fixed <|
    .cons "seq" false (.int (some 1) (some 4294967295)) <|
    .cons "action" true (choice ["permit", "deny"]) <|
    .cons "prefix" true .pfx <|
    .cons "le" false (.int (some 0) (some 128)) <|
    .cons "ge" false (.int (some 0) (some 128)) .nil

def routeMapClauseSchema : Node :=
  .fixed <|
    .cons "seq" false (.int (some 1) (some 65535)) <|
    .cons "action" true (choice ["permit", "deny"]) <|
    .cons "match" false .any <|
    .cons "set" false .any .nil

def staticRouteSchema : Node :=
  .fixed <|
    .cons "next-hop" true .addr <|
    .cons "distance" false (.int (some 0) (some 255)) <|
    .cons "metric" false uint32 .nil

def routeInstallSchema : Node :=
  .fixed <|
    .cons "install" false .bool <|
    .cons "table" false uint32 <|
    .cons "protocol" false (.int (some 1) (some 255)) <|
    .cons "priority" false (.fixed <|
      .cons "ebgp" false uint32 <|
      .cons "ibgp" false uint32 .nil) <|
    .cons "retain-on-shutdown" false .bool <|
    .cons "static" false (.keyed .pfx none staticRouteSchema) <|
    .cons "validate-next-hop" false .bool <|
    .cons "resolve-via-default" false .bool <|
    .cons "kernel-import" false .bool .nil

def apiSchema : Node :=
  .fixed <|
    .cons "bind" false (.str {}) <|
    .cons "auth" false (.fixed <|
      .cons "token" false (.secret { minlen := some 16 }) <|
      .cons "token-file" false (.str {}) <|
      .cons "allow-unauthenticated-health" false .bool .nil) <|
    .cons "insecure" false .bool <|
    .cons "tls" false (.fixed <|
      .cons "cert" false (.str {}) <|
      .cons "key" false (.str {}) .nil) <|
    .cons "max-body-bytes" false (.int (some 1024) (some 67108864)) <|
    .cons "max-page" false (.int (some 1) (some 1000000)) .nil

/-- `CORE_SCHEMA`, with the sections the plugins contributed under `router`. -/
def coreSchema (router : Keys) : Node :=
  .fixed <|
    .cons "router" false (.fixed router) <|
    .cons "ip" false (.fixed <|
      .cons "prefix-list" false (.keyed .name none (.list prefixListEntrySchema)) <|
      .cons "as-path-access-list" false (.keyed .name none (.list .any)) <|
      .cons "route" false routeInstallSchema .nil) <|
    .cons "ipv6" false (.fixed <|
      .cons "prefix-list" false (.keyed .name none (.list prefixListEntrySchema)) <|
      .cons "route" false (.fixed <|
        .cons "static" false (.keyed .pfx none staticRouteSchema) .nil) .nil) <|
    .cons "route-map" false (.keyed .name none (.list routeMapClauseSchema)) <|
    .cons "api" false apiSchema .nil

end Packets
