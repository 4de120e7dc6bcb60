import LayerCache.Namespace.Stack

/-! # Namespaces

A namespace puts its prefix before the keys, the patterns and the static tags of every
operation and hands them to the stack.
-/

namespace LayerCache.Namespaced

structure CacheNamespace where
  pre : String
  valid : validateNamespaceKey pre = .ok ()

namespace CacheNamespace

def ofPrefix (pre : String) : Except String CacheNamespace :=
  match h : validateNamespaceKey pre with
  | .ok () => .ok ⟨pre, h⟩
  | .error error => .error error

variable (ns : CacheNamespace)

def qualify (key : String) : String := ns.pre ++ ":" ++ key

def qualifyTag (tag : String) : String := ns.pre ++ ":" ++ tag

def «namespace» (childPrefix : String) : Except String CacheNamespace := do
  validateNamespaceKey childPrefix
  ofPrefix (ns.pre ++ ":" ++ childPrefix)

def qualifyWriteOptions {V : Type} (options : CacheWriteOptions V) : CacheWriteOptions V :=
  { options with tags := options.tags.map fun tags => tags.map ns.qualifyTag }

def qualifySelection : Selection → Selection
  | .keys keys => .keys (keys.map ns.qualify)
  | .tag tag => .tag (ns.qualifyTag tag)
  | .tags tags all => .tags (tags.map ns.qualifyTag) all
  | .pattern pattern => .pattern (ns.qualify pattern)
  | .startingWith pre => .startingWith (ns.qualify pre)

end CacheNamespace

/-- An operation on a namespace or on the stack. Clearing a namespace is an invalidation by the
empty prefix; `mget`, `warm` and `wrap` come to reads with a fetcher. -/
inductive Operation (V : Type)
  | set (key : String) (value : V) (options : CacheWriteOptions V)
  | mset (entries : List (CacheMSetEntry V))
  | get (key : String) (fetched : Option (CacheWriteKind × Option V))
      (options : CacheWriteOptions V)
  | invalidate (effect : Effect) (selection : Selection)

variable {G V : Type} [ToString G]

def CacheStack.perform (stack : CacheStack G V) : Operation V → Except String (CacheStack G V)
  | .set key value options => stack.set key value options
  | .mset entries => stack.mset entries
  | .get key fetched options => stack.get key fetched options
  | .invalidate effect selection => stack.invalidate effect selection

def CacheStack.elapse (stack : CacheStack G V) (ms : Millis) : CacheStack G V :=
  { stack with now := stack.now + max 0 ms }

omit [ToString G] in
@[simp]
theorem elapse_zero (stack : CacheStack G V) : stack.elapse 0 = stack := by
  rw [CacheStack.elapse, max_self, add_zero]

/-- No layer has more entries than it takes before it evicts one. -/
def CacheStack.Within (maxSize : ℕ → Option ℕ) (stack : CacheStack G V) : Prop :=
  ∀ p ∈ stack.layers.zipIdx, ∀ bound ∈ maxSize p.2, p.1.entries.length ≤ bound

omit [ToString G] in
instance (maxSize : ℕ → Option ℕ) (stack : CacheStack G V) : Decidable (stack.Within maxSize) :=
  inferInstanceAs (Decidable (∀ p ∈ stack.layers.zipIdx, ∀ bound ∈ maxSize p.2, _))

namespace CacheNamespace
variable (ns : CacheNamespace)

def qualifyEntry (entry : CacheMSetEntry V) : CacheMSetEntry V :=
  { entry with key := ns.qualify entry.key, options := ns.qualifyWriteOptions entry.options }

def qualifyOperation : Operation V → Operation V
  | .set key value options => .set (ns.qualify key) value (ns.qualifyWriteOptions options)
  | .mset entries => .mset (entries.map ns.qualifyEntry)
  | .get key fetched options => .get (ns.qualify key) fetched (ns.qualifyWriteOptions options)
  | .invalidate effect selection => .invalidate effect (ns.qualifySelection selection)

def perform (stack : CacheStack G V) (operation : Operation V) : Except String (CacheStack G V) :=
  stack.perform (ns.qualifyOperation operation)

/-- Some time passes and the operation runs; one that is refused changes nothing. -/
def step (stack : CacheStack G V) (event : Millis × Operation V) : CacheStack G V :=
  let stack := stack.elapse event.1
  (ns.perform stack event.2).toOption.getD stack

def run (stack : CacheStack G V) (events : List (Millis × Operation V)) : CacheStack G V :=
  events.foldl ns.step stack

def KeepsWithin (maxSize : ℕ → Option ℕ) (stack : CacheStack G V)
    (events : List (Millis × Operation V)) : Prop :=
  ∀ n, (ns.run stack (events.take n)).Within maxSize

end CacheNamespace

end LayerCache.Namespaced
