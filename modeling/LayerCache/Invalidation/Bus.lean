import LayerCache.Json.Parse
import LayerCache.Invalidation.Sanitizer

/-! # The Redis invalidation bus

A published message travels as JSON text, wrapped with its signature when the
bus has a signing secret, and the receiving end sanitizes it before it looks at
it. Whether it arrives depends on the number of nodes of what was published.
-/

namespace LayerCache

open Json

inductive Scope
  | key
  | keys
  | clear
deriving DecidableEq

inductive Operation
  | write
  | delete
  | invalidate
  | expire
  | clear
deriving DecidableEq

structure InvalidationMessage where
  scope : Scope
  keys : Option (List String)
  sourceId : String
  operation : Option Operation
deriving DecidableEq

def Scope.text : Scope → String
  | .key => "key"
  | .keys => "keys"
  | .clear => "clear"

def Scope.ofText (s : String) : Option Scope :=
  if s = "key" then some .key
  else if s = "keys" then some .keys
  else if s = "clear" then some .clear
  else none

def Operation.text : Operation → String
  | .write => "write"
  | .delete => "delete"
  | .invalidate => "invalidate"
  | .expire => "expire"
  | .clear => "clear"

def Operation.ofText (s : String) : Option Operation :=
  if s = "write" then some .write
  else if s = "delete" then some .delete
  else if s = "invalidate" then some .invalidate
  else if s = "expire" then some .expire
  else if s = "clear" then some .clear
  else none

@[simp]
theorem Scope.ofText_text (scope : Scope) : Scope.ofText scope.text = some scope := by
  cases scope <;> decide

@[simp]
theorem Operation.ofText_text (operation : Operation) :
    Operation.ofText operation.text = some operation := by
  cases operation <;> decide

/-- The message as the object a `CacheStack` hands to the bus: absent properties are not
there, and the rest stand in the order the publishing sites write them. -/
def InvalidationMessage.toJson (message : InvalidationMessage) : Value :=
  .object <|
    ("scope", .string message.scope.text) ::
      (match message.keys with
        | none => []
        | some keys => [("keys", .array (keys.map .string))]) ++
      ("sourceId", .string message.sourceId) ::
      (match message.operation with
        | none => []
        | some operation => [("operation", .string operation.text)])

def readScope : Option Value → Option Scope
  | some (.string s) => Scope.ofText s
  | _ => none

def readOperation : Option Value → Option (Option Operation)
  | none => some none
  | some (.string s) => (Operation.ofText s).map some
  | _ => none

def readKey : Value → Option String
  | .string s => some s
  | _ => none

def readKeys : Option Value → Option (Option (List String))
  | none => some none
  | some (.array items) => (items.mapM readKey).map some
  | _ => none

def readSourceId : Option Value → Option String
  | some (.string s) => if s.length > 0 then some s else none
  | _ => none

/-- `isInvalidationMessage`, together with the message that a value passing it is. -/
def asInvalidationMessage (value : Value) : Option InvalidationMessage := do
  let scope ← readScope (value.get? "scope")
  let sourceId ← readSourceId (value.get? "sourceId")
  let operation ← readOperation (value.get? "operation")
  let keys ← readKeys (value.get? "keys")
  pure { scope, keys, sourceId, operation }

abbrev Bytes := List UInt8

/-- What the bus takes from the platform's crypto module. -/
structure Crypto where
  sha256 : Bytes → Bytes
  hmacHex : Bytes → String → String

structure RedisInvalidationBus where
  crypto : Crypto
  signingSecret : Option Bytes

def resolveSigningSecret (secret : Option Bytes) : Option Bytes :=
  secret.filter fun bytes => bytes.length > 0

def RedisInvalidationBus.signingKey (bus : RedisInvalidationBus) : Option Bytes :=
  (resolveSigningSecret bus.signingSecret).map bus.crypto.sha256

def createSignature (crypto : Crypto) (key : Bytes) (payload : String) : String :=
  crypto.hmacHex key payload

/-- Decoding hexadecimal text stops at the first pair that is none. -/
def hexBytes : List Char → List ℕ
  | a :: b :: rest =>
    match hexValue a, hexValue b with
    | some x, some y => (16 * x + y) :: hexBytes rest
    | _, _ => []
  | _ => []

def isEqualSignature (actual expected : String) : Bool :=
  hexBytes actual.toList = hexBytes expected.toList

def signMessage (crypto : Crypto) (key : Bytes) (message : Value) : Value :=
  .object [("payload", message),
    ("signature", .string (createSignature crypto key (stringify message)))]

def isObjectOrArray : Value → Bool
  | .object _ | .array _ => true
  | _ => false

def verifySignedEnvelope (crypto : Crypto) (key : Bytes) (value : Value) : Except String Value :=
  if isObjectOrArray value then
    match value.get? "payload", value.get? "signature" with
    | some payload, some (.string signature) =>
      if isObjectOrArray payload then
        if isEqualSignature signature (createSignature crypto key (stringify payload)) then
          .ok payload
        else .error "Invalid invalidation message signature."
      else .error "Signed invalidation envelope is missing payload or signature."
    | _, _ => .error "Signed invalidation envelope is missing payload or signature."
  else .error "Signed invalidation envelope must be an object."

/-- The text that `publish` sends over the channel. -/
def RedisInvalidationBus.publish (bus : RedisInvalidationBus) (message : InvalidationMessage) :
    String :=
  stringify <|
    match bus.signingKey with
    | some key => signMessage bus.crypto key message.toJson
    | none => message.toJson

def payloadLimits : SanitizeStructuredDataOptions where
  maxDepth := 64
  maxNodes := 10000
  label := "Invalidation payload"

/-- What a received payload says, or the error it is reported with. -/
def RedisInvalidationBus.receive (bus : RedisInvalidationBus) (payload : String) :
    Except String InvalidationMessage :=
  match parse payload with
  | none => .error "Unexpected token in JSON."
  | some value => do
    let parsed ← sanitizeStructuredData value payloadLimits
    let candidate ←
      match bus.signingKey with
      | some key => verifySignedEnvelope bus.crypto key parsed
      | none => pure parsed
    match asInvalidationMessage candidate with
    | some message => pure message
    | none => .error "Invalid invalidation payload shape."

/-- The handlers that a payload reaches, each with the message it is called with. -/
def RedisInvalidationBus.dispatchToHandlers {H : Type*} (bus : RedisInvalidationBus)
    (handlers : List H) (payload : String) : List (H × InvalidationMessage) :=
  match bus.receive payload with
  | .ok message => handlers.map fun handler => (handler, message)
  | .error _ => []

def InstanceId := { s : String // s.length > 0 }

/-- The messages that the operations of a `CacheStack` publish. -/
inductive Publication
  | one (operation : Operation) (key : String)
  | many (operation : Operation) (keys : List String)
  | clear

def Publication.message (sourceId : InstanceId) : Publication → InvalidationMessage
  | .one operation key => ⟨.key, some [key], sourceId.1, some operation⟩
  | .many operation keys => ⟨.keys, some keys, sourceId.1, some operation⟩
  | .clear => ⟨.clear, none, sourceId.1, some .clear⟩

def defaultInvalidationMaxKeys : ℕ := 10000

/-- `assertWithinInvalidationKeyLimit`; `none` is a limit turned off. -/
def withinInvalidationKeyLimit (keyCount : ℕ) (maxKeys : Option ℕ) : Bool :=
  match maxKeys with
  | none => true
  | some maxKeys => !decide (keyCount > maxKeys)

/-- Published by one stack, received by the other end of the bus, at every handler. -/
def Delivered (bus : RedisInvalidationBus) (message : InvalidationMessage) : Prop :=
  ∀ {H : Type} (handlers : List H),
    bus.dispatchToHandlers handlers (bus.publish message) =
      handlers.map fun handler => (handler, message)

/-- The nodes a published payload has besides the keys of its message. -/
def RedisInvalidationBus.overhead (bus : RedisInvalidationBus) : ℕ :=
  if bus.signingKey.isSome then 7 else 5

/-- A single key and a clear always fit the payload limits, a list of keys when it is short
enough. -/
def Publication.WithinNodeLimit (bus : RedisInvalidationBus) : Publication → Prop
  | .many _ keys => keys.length + bus.overhead ≤ payloadLimits.maxNodes
  | _ => True

variable {bus : RedisInvalidationBus} {message : InvalidationMessage}

theorem delivered_iff_receive :
    Delivered bus message ↔ bus.receive (bus.publish message) = .ok message := by
  constructor
  · intro h
    have h1 := h [()]
    simp only [RedisInvalidationBus.dispatchToHandlers] at h1
    cases hr : bus.receive (bus.publish message) with
    | ok received =>
      rw [hr] at h1
      simp only [List.map_cons, List.map_nil, List.cons.injEq, Prod.mk.injEq, true_and,
        and_true] at h1
      rw [h1]
    | error e => rw [hr] at h1; cases h1
  · intro h H handlers
    simp only [RedisInvalidationBus.dispatchToHandlers, h]

/-- The object that `publish` writes out. -/
def RedisInvalidationBus.payload (bus : RedisInvalidationBus) (message : InvalidationMessage) :
    Value :=
  match bus.signingKey with
  | some key => signMessage bus.crypto key message.toJson
  | none => message.toJson

theorem publish_eq : bus.publish message = stringify (bus.payload message) := rfl

theorem wellFormed_strings (ks : List String) : WellFormed (.array (ks.map .string)) := by
  refine .array fun v hv => ?_
  obtain ⟨s, -, rfl⟩ := List.mem_map.mp hv
  exact .string s

theorem wellFormed_toJson (message : InvalidationMessage) : WellFormed message.toJson := by
  obtain ⟨scope, keys, sourceId, operation⟩ := message
  cases keys <;> cases operation <;>
    exact .object (by simp [wellFormed_strings, WellFormed.string])
      (ofEntries_eq_self (by simp; decide) (by simp))

theorem wellFormed_payload : WellFormed (bus.payload message) := by
  unfold RedisInvalidationBus.payload
  cases bus.signingKey with
  | none => exact wellFormed_toJson message
  | some key =>
    exact .object (by simp [wellFormed_toJson, WellFormed.string])
      (ofEntries_eq_self (by simp; decide) (by simp))

theorem stripItems_string (ks : List String) :
    stripItems (ks.map .string) = ks.map .string := by
  induction ks with
  | nil => rfl
  | cons k ks ih => simp [stripItems, strip, ih]

theorem nodesItems_string (ks : List String) : nodesItems (ks.map .string) = ks.length := by
  induction ks with
  | nil => rfl
  | cons k ks ih => simp [nodesItems, nodes, ih]; omega

theorem heightItems_string (ks : List String) : heightItems (ks.map .string) ≤ 1 := by
  induction ks with
  | nil => simp [heightItems]
  | cons k ks ih => simp [heightItems, height, ih]

theorem strip_payload : strip (bus.payload message) = bus.payload message := by
  obtain ⟨scope, keys, sourceId, operation⟩ := message
  unfold RedisInvalidationBus.payload
  cases bus.signingKey <;> cases keys <;> cases operation <;>
    simp [InvalidationMessage.toJson, signMessage, strip, stripMembers, stripItems_string,
      dangerousKeys]

theorem height_payload : height (bus.payload message) ≤ payloadLimits.maxDepth := by
  obtain ⟨scope, keys, sourceId, operation⟩ := message
  unfold RedisInvalidationBus.payload
  cases bus.signingKey <;> rcases keys with _ | ks <;> cases operation <;>
    simp [InvalidationMessage.toJson, signMessage, height, heightMembers, payloadLimits]
  all_goals have h := heightItems_string ks; omega

theorem nodes_payload (sourceId : InstanceId) (p : Publication) :
    nodes (bus.payload (p.message sourceId)) ≤ payloadLimits.maxNodes ↔
      p.WithinNodeLimit bus := by
  unfold RedisInvalidationBus.payload Publication.WithinNodeLimit RedisInvalidationBus.overhead
  cases bus.signingKey <;> cases p <;>
    simp [Publication.message, InvalidationMessage.toJson, signMessage, nodes, nodesMembers,
      nodesItems_string, nodesItems, payloadLimits]
  all_goals omega

theorem readKeys_strings (ks : List String) :
    readKeys (some (.array (ks.map .string))) = some (some ks) := by
  have h : (ks.map Value.string).mapM readKey = some ks := by
    induction ks with
    | nil => rfl
    | cons k ks ih => simp [List.mapM_cons, readKey, -List.mapM_map, ih]
  simp only [readKeys, h, Option.map_some]

theorem asInvalidationMessage_toJson (h : message.sourceId.length > 0) :
    asInvalidationMessage message.toJson = some message := by
  obtain ⟨scope, keys, sourceId, operation⟩ := message
  cases keys <;> cases operation <;>
    simp_all [asInvalidationMessage, InvalidationMessage.toJson, Value.get?, readScope,
      readSourceId, readOperation, readKeys_strings, show readKeys none = some none from rfl]

theorem isEqualSignature_self (s : String) : isEqualSignature s s = true := by
  simp [isEqualSignature]

theorem verifySignedEnvelope_signMessage (crypto : Crypto) (key : Bytes)
    (message : InvalidationMessage) :
    verifySignedEnvelope crypto key (signMessage crypto key message.toJson) =
      .ok message.toJson := by
  simp [verifySignedEnvelope, signMessage, Value.get?, isObjectOrArray, isEqualSignature_self,
    InvalidationMessage.toJson]

theorem receive_publish (h : message.sourceId.length > 0)
    (hn : nodes (bus.payload message) ≤ payloadLimits.maxNodes) :
    bus.receive (bus.publish message) = .ok message := by
  have hs : sanitizeStructuredData (bus.payload message) payloadLimits =
      .ok (bus.payload message) := by
    have h := @sanitizeStructuredData_ok payloadLimits (bus.payload message)
    rw [strip_payload] at h
    exact h hn height_payload
  rw [publish_eq, RedisInvalidationBus.receive, parse_stringify wellFormed_payload]
  simp only [hs, Except.bind_ok]
  unfold RedisInvalidationBus.payload
  cases bus.signingKey <;>
    simp [pure_eq_ok, Except.bind_ok, verifySignedEnvelope_signMessage,
      asInvalidationMessage_toJson h]

theorem receive_publish_error (hn : ¬ nodes (bus.payload message) ≤ payloadLimits.maxNodes) :
    ∃ e, bus.receive (bus.publish message) = .error e := by
  obtain ⟨e, he⟩ := @sanitizeStructuredData_error payloadLimits (bus.payload message)
    (by rw [strip_payload]; exact fun h => hn h.1)
  refine ⟨e, ?_⟩
  rw [publish_eq, RedisInvalidationBus.receive, parse_stringify wellFormed_payload]
  simp only [he, Except.bind_error]

/-- A published message reaches every handler unchanged exactly when the receiving end's
node limit has room for its keys. -/
theorem delivered_iff_withinNodeLimit (bus : RedisInvalidationBus) (sourceId : InstanceId)
    (p : Publication) : Delivered bus (p.message sourceId) ↔ p.WithinNodeLimit bus := by
  have hid : (p.message sourceId).sourceId.length > 0 := by
    cases p <;> exact sourceId.2
  rw [delivered_iff_receive, ← nodes_payload sourceId p]
  constructor
  · intro h
    by_contra hn
    obtain ⟨e, he⟩ := receive_publish_error hn
    rw [h] at he
    cases he
  · exact receive_publish hid

/-- A tag invalidation of ten thousand keys is within the default key limit, yet its message
is dropped by the receiving end of the same bus. -/
theorem tenThousandKeys_dropped :
    withinInvalidationKeyLimit 10000 (some defaultInvalidationMaxKeys) = true ∧
    ¬ Delivered ⟨⟨id, fun _ s => s⟩, none⟩
      (Publication.message ⟨"node-a", by decide⟩
        (.many .invalidate ((List.range 10000).map fun i => "user:" ++ toString i))) := by
  refine ⟨by decide, ?_⟩
  rw [delivered_iff_receive]
  intro h
  have hn := (@nodes_payload ⟨⟨id, fun _ s => s⟩, none⟩ ⟨"node-a", by decide⟩
    (.many .invalidate ((List.range 10000).map fun i => "user:" ++ toString i))).not.mpr (by
      simp [Publication.WithinNodeLimit, RedisInvalidationBus.overhead,
        RedisInvalidationBus.signingKey, resolveSigningSecret, payloadLimits])
  obtain ⟨e, he⟩ := receive_publish_error hn
  rw [h] at he
  cases he

end LayerCache
