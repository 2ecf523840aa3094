import CoinSpend.SystemCache
import CoinSpend.Proofs.Attempts
import Mathlib.Data.List.Induction

/-!
# Histories of a cache

A cache starts out empty, and only requests and forgetting change it. Whatever was done to it
before, the system it keeps for some parameters is the one that is built for them, so that a
request is answered like an attempt to build the system anew.

This is shown of a cache that keeps the systems under the parameters themselves. A cache with any
other keys goes through the same histories, under other names, as long as every parameter set has a
key and different ones have different keys.
-/

namespace CoinSpend

namespace SystemCache

variable {reported : Bool}

/-- Every system is the one that is built for the parameters it is kept for. -/
def Sound (reported : Bool) (cache : SystemCache Parameters) : Prop :=
  ∀ p shared, cache.find? p = some shared → LinearSystem.build reported p = .ok shared.system

theorem find?_keep (entries : List (Parameters × SharedSystem)) (built : ℕ) (p p' : Parameters)
    (shared : SharedSystem) :
    find? ⟨(p', shared) :: entries, built⟩ p
      = if p = p' then some shared else find? ⟨entries, built⟩ p := by
  by_cases same : p = p'
  · subst same
    simp [find?]
  · rw [if_neg same]
    simp [find?, List.lookup_cons, beq_eq_false_iff_ne.mpr same]

/-- A request finds the system, builds it, or fails to and leaves the cache as it is. -/
theorem get_cases (reported : Bool) (cache : SystemCache Parameters) (p : Parameters) :
    (∃ shared, cache.find? p = some shared ∧ cache.get .ok reported p = (.ok shared, cache)) ∨
    (∃ system, cache.find? p = none ∧ LinearSystem.build reported p = .ok system ∧
      cache.get .ok reported p = (.ok ⟨cache.built, system⟩,
        ⟨(p, ⟨cache.built, system⟩) :: cache.entries, cache.built + 1⟩)) ∨
    (∃ failure, cache.find? p = none ∧
      (LinearSystem.build reported p).restate CacheError.layout = .error failure ∧
      cache.get .ok reported p = (.error failure, cache)) := by
  cases found : cache.find? p with
  | some shared => exact Or.inl ⟨shared, rfl, by simp only [get, found]⟩
  | none =>
    cases attempt : (LinearSystem.build reported p).restate CacheError.layout with
    | ok system =>
      exact Or.inr (Or.inl ⟨system, rfl, Attempt.restate_eq_ok_iff.mp attempt,
        by simp only [get, found, attempt]⟩)
    | error failure => exact Or.inr (Or.inr ⟨failure, rfl, rfl, by simp only [get, found, attempt]⟩)

variable {cache : SystemCache Parameters}

/-- What a request makes of a cache is the cache itself, or that with a new entry. -/
theorem get_snd_induction {motive : SystemCache Parameters → Prop} {p : Parameters}
    (same : motive cache)
    (grown : ∀ system, cache.find? p = none → LinearSystem.build reported p = .ok system →
      motive ⟨(p, ⟨cache.built, system⟩) :: cache.entries, cache.built + 1⟩) :
    motive (cache.get .ok reported p).2 := by
  rcases cache.get_cases reported p with ⟨shared, -, answer⟩ | ⟨system, new, built, answer⟩ |
    ⟨failure, -, -, answer⟩
  · rw [answer]
    exact same
  · rw [answer]
    exact grown system new built
  · rw [answer]
    exact same

theorem sound_empty : Sound reported empty := by
  intro p shared kept
  cases kept

theorem Sound.get_snd (sound : cache.Sound reported) (p : Parameters) :
    (cache.get .ok reported p).2.Sound reported := by
  refine get_snd_induction sound ?_
  intro system _ built p' shared kept
  rw [find?_keep] at kept
  by_cases same : p' = p
  · rw [if_pos same] at kept
    obtain rfl := Option.some.inj kept
    rw [same]
    exact built
  · rw [if_neg same] at kept
    exact sound p' shared kept

theorem Sound.step (sound : cache.Sound reported) (call : CacheCall) :
    (cache.step .ok reported call).Sound reported := by
  cases call with
  | get p => exact sound.get_snd p
  | clear =>
    intro p shared kept
    cases kept

theorem sound_after (reported : Bool) (history : List CacheCall) :
    (after .ok reported history).Sound reported := by
  induction history using List.reverseRecOn with
  | nil => exact sound_empty
  | append_singleton history call ih =>
    rw [after, List.foldl_append]
    exact ih.step call

/-- Apart from its number, what is handed out is what building gives. -/
theorem Sound.get_fst (sound : cache.Sound reported) (p : Parameters) :
    (cache.get .ok reported p).1.map SharedSystem.system
      = (LinearSystem.build reported p).restate CacheError.layout := by
  rcases cache.get_cases reported p with ⟨shared, kept, answer⟩ | ⟨system, -, built, answer⟩ |
    ⟨failure, -, failed, answer⟩
  · rw [answer, sound p shared kept]
    rfl
  · rw [answer, built]
    rfl
  · rw [answer, failed]
    rfl

/-! ## Other keys -/

variable {κ : Type}

/-- What a cache keeps, under the keys of the parameters. -/
def rekey (key : Parameters → κ) (cache : SystemCache Parameters) : SystemCache κ :=
  ⟨cache.entries.map (Prod.map key id), cache.built⟩

theorem size_rekey (key : Parameters → κ) (cache : SystemCache Parameters) :
    (cache.rekey key).size = cache.size :=
  List.length_map _

variable [DecidableEq κ] {key : Parameters → κ}

theorem find?_rekey (injective : key.Injective) (cache : SystemCache Parameters) (p : Parameters) :
    (cache.rekey key).find? (key p) = cache.find? p := by
  unfold rekey find?
  induction cache.entries with
  | nil => rfl
  | cons entry entries ih =>
    have same : (key p == key entry.1) = (p == entry.1) := by
      rw [Bool.eq_iff_iff, beq_iff_eq, beq_iff_eq, injective.eq_iff]
    rw [List.map_cons, List.lookup_cons, List.lookup_cons, Prod.map_fst, same, ih]
    rfl

section

variable {encode : Parameters → Except String κ} (encodes : ∀ p, encode p = .ok (key p))
  (injective : key.Injective)
include encodes injective

theorem get_rekey (cache : SystemCache Parameters) (p : Parameters) :
    (cache.rekey key).get encode reported p
      = ((cache.get .ok reported p).1, (cache.get .ok reported p).2.rekey key) := by
  unfold get
  rw [encodes]
  dsimp only
  rw [find?_rekey injective]
  cases cache.find? p with
  | some shared => rfl
  | none =>
    cases (LinearSystem.build reported p).restate CacheError.layout with
    | ok system => rfl
    | error failure => rfl

theorem after_eq_rekey (history : List CacheCall) :
    after encode reported history = (after .ok reported history).rekey key := by
  induction history using List.reverseRecOn with
  | nil => rfl
  | append_singleton history call ih =>
    rw [after, after, List.foldl_append, List.foldl_append, ← after, ← after, ih]
    cases call with
    | get p => exact congrArg Prod.snd (get_rekey encodes injective _ p)
    | clear => rfl

/-- The keys do not change what is handed out. -/
theorem answer_eq_answer_ok : answer encode reported = answer .ok reported := by
  funext history p
  rw [answer, after_eq_rekey encodes injective, get_rekey encodes injective, answer]

/-- After every history a request is answered with what building gives. -/
theorem answer_map_system (reported : Bool) (history : List CacheCall) (p : Parameters) :
    (answer encode reported history p).map SharedSystem.system
      = (LinearSystem.build reported p).restate CacheError.layout := by
  rw [answer_eq_answer_ok encodes injective]
  exact (sound_after reported history).get_fst p

variable {p : Parameters}

theorem answer_of_ok {system : LinearSystem} (built : LinearSystem.build reported p = .ok system)
    (history : List CacheCall) :
    ∃ shared, answer encode reported history p = .ok shared ∧ shared.system = system := by
  have handed := answer_map_system encodes injective reported history p
  rw [built, Attempt.restate_ok] at handed
  exact map_eq_ok_iff.mp handed

theorem answer_of_refuse {error : LayoutError}
    (refused : LinearSystem.build reported p = .refuse error) (history : List CacheCall) :
    answer encode reported history p = .refuse (.layout error) := by
  have handed := answer_map_system encodes injective reported history p
  rw [refused, Attempt.restate_refuse] at handed
  exact map_eq_error_iff.mp handed

end

end SystemCache

end CoinSpend
