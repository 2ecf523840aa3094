import CoinSpend.Constraint

/-!
# Shared constraint systems

The constraints of a parameter set are built once and shared by its spends. A cache keeps one
system for each parameter set, under the key that the set is encoded as; every system that is built
gets a number of its own, which tells shared systems from equal ones.

How parameters are encoded is up to the caller, and it may fail.
-/

namespace CoinSpend

/-- Why no system is handed out. -/
inductive CacheError where
  | encoding (reason : String)
  | layout (error : LayoutError)
  deriving DecidableEq

namespace CacheError

/-- What is said about a system that is not handed out. -/
def message : CacheError → String
  | encoding reason => "encoding error: " ++ reason
  | layout error => error.message

end CacheError

/-- A built system and its number. -/
structure SharedSystem where
  number : Nat
  system : LinearSystem
  deriving DecidableEq

/-- The systems kept under their keys, and how many have been built so far. -/
structure SystemCache (κ : Type) where
  entries : List (κ × SharedSystem)
  built : Nat

/-- What is done to a cache. -/
inductive CacheCall where
  | get (p : Parameters)
  | clear
  deriving DecidableEq

namespace SystemCache

variable {κ : Type}

/-- A cache that keeps nothing yet. -/
def empty : SystemCache κ :=
  ⟨[], 0⟩

/-- The number of systems kept. -/
def size (cache : SystemCache κ) : Nat :=
  cache.entries.length

/-- Whether nothing is kept. -/
def isEmpty (cache : SystemCache κ) : Bool :=
  cache.size == 0

/-- Forgets all systems. Those handed out before keep their numbers, which are not used again. -/
def clear (cache : SystemCache κ) : SystemCache κ :=
  { cache with entries := [] }

variable [DecidableEq κ]

/-- The system kept under the key. -/
def find? (cache : SystemCache κ) (key : κ) : Option SharedSystem :=
  cache.entries.lookup key

variable (encode : Parameters → Except String κ) (reported : Bool)

/-- The system for the parameters, built and kept if it is not there yet. Parameters without a key
    and a system that cannot be built leave the cache as it was. -/
def get (cache : SystemCache κ) (p : Parameters) :
    Attempt CacheError SharedSystem × SystemCache κ :=
  match encode p with
  | .error reason => (.refuse (.encoding reason), cache)
  | .ok key =>
      match cache.find? key with
      | some shared => (.ok shared, cache)
      | none =>
          match (LinearSystem.build reported p).restate CacheError.layout with
          | .ok system =>
              let shared := ⟨cache.built, system⟩
              (.ok shared, ⟨(key, shared) :: cache.entries, cache.built + 1⟩)
          | .error failure => (.error failure, cache)

/-- The cache after a call. -/
def step (cache : SystemCache κ) : CacheCall → SystemCache κ
  | .get p => (cache.get encode reported p).2
  | .clear => cache.clear

/-- What the calls of a history make of a new cache. -/
def after (history : List CacheCall) : SystemCache κ :=
  history.foldl (step encode reported) empty

/-- What a cache says to a request after a history. -/
def answer (history : List CacheCall) (p : Parameters) : Attempt CacheError SharedSystem :=
  ((after encode reported history).get encode reported p).1

end SystemCache

end CoinSpend
