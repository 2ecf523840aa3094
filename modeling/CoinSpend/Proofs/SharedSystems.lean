import CoinSpend.Proofs.CacheHistories
import CoinSpend.Proofs.CompactKeys
import CoinSpend.Proofs.FoldedEquivalence
import Mathlib.Data.Set.Card

/-!
# Systems shared along a history

Until it is cleared, a cache hands out one and the same system whenever it is asked for the same
parameters, and what it keeps are the parameters that were answered since. A number is handed out
for one system only, and not again after the cache was cleared.

None of this depends on what the systems are kept under, as long as it tells parameters apart.
-/

namespace CoinSpend

/-- Parameters for which a system was handed out after the last time the cache was cleared, if
    `answer` is what the cache says to a request after the calls before it. -/
def AnsweredSince (answer : List CacheCall → Parameters → Attempt CacheError SharedSystem)
    (history : List CacheCall) (p : Parameters) : Prop :=
  ∃ earlier later shared, history = earlier ++ .get p :: later ∧ .clear ∉ later ∧
    answer earlier p = .ok shared

theorem AnsweredSince.append_get
    {answer : List CacheCall → Parameters → Attempt CacheError SharedSystem}
    {history : List CacheCall} {p : Parameters} (answered : AnsweredSince answer history p)
    (p' : Parameters) : AnsweredSince answer (history ++ [.get p']) p := by
  obtain ⟨earlier, later, shared, rfl, uncleared, handed⟩ := answered
  refine ⟨earlier, later ++ [.get p'], shared, by simp, ?_, handed⟩
  simpa using uncleared

namespace SystemCache

variable {reported : Bool}

theorem after_append (history later : List CacheCall) :
    after .ok reported (history ++ later)
      = later.foldl (step .ok reported) (after .ok reported history) :=
  List.foldl_append

variable {cache : SystemCache Parameters} {p : Parameters} {shared : SharedSystem}

/-! ## What is kept -/

theorem get_of_find? (kept : cache.find? p = some shared) :
    cache.get .ok reported p = (.ok shared, cache) := by
  simp only [get, kept]

/-- What is handed out is kept. -/
theorem find?_get_of_ok (answered : (cache.get .ok reported p).1 = .ok shared) :
    (cache.get .ok reported p).2.find? p = some shared := by
  rcases cache.get_cases reported p with ⟨shared', kept, same⟩ | ⟨system, -, -, grown⟩ |
    ⟨failure, -, -, failed⟩
  · rw [same] at answered ⊢
    exact kept.trans (congrArg some (Except.ok.inj answered))
  · rw [grown] at answered ⊢
    rw [find?_keep, if_pos rfl]
    exact congrArg some (Except.ok.inj answered)
  · rw [failed] at answered
    cases answered

/-- A request takes nothing away. -/
theorem find?_get_of_some (kept : cache.find? p = some shared) (p' : Parameters) :
    (cache.get .ok reported p').2.find? p = some shared := by
  refine get_snd_induction (motive := fun cache => cache.find? p = some shared) kept ?_
  intro system new _
  have other : p ≠ p' := by
    rintro rfl
    rw [kept] at new
    cases new
  rw [find?_keep, if_neg other]
  exact kept

theorem find?_foldl_step {calls : List CacheCall} (kept : cache.find? p = some shared)
    (uncleared : .clear ∉ calls) :
    (calls.foldl (step .ok reported) cache).find? p = some shared := by
  refine List.foldlRecOn calls (step .ok reported)
    (motive := fun cache => cache.find? p = some shared) kept ?_
  intro cache kept call member
  cases call with
  | get p' => exact find?_get_of_some kept p'
  | clear => exact absurd member uncleared

/-- What is kept after a request was kept before, or is the answer. -/
theorem find?_get_cases {p' : Parameters}
    (kept : (cache.get .ok reported p').2.find? p = some shared) :
    cache.find? p = some shared ∨ p = p' ∧ (cache.get .ok reported p').1 = .ok shared := by
  rcases cache.get_cases reported p' with ⟨shared', -, same⟩ | ⟨system, -, -, grown⟩ |
    ⟨failure, -, -, failed⟩
  · rw [same] at kept
    exact Or.inl kept
  · rw [grown, find?_keep] at kept
    rw [grown]
    split at kept
    case isTrue requested => exact Or.inr ⟨requested, congrArg Except.ok (Option.some.inj kept)⟩
    case isFalse => exact Or.inl kept
  · rw [failed] at kept
    exact Or.inl kept

/-- What is kept was handed out, and the cache not cleared since. -/
theorem exists_find?_after_iff {history : List CacheCall} :
    (∃ shared, (after .ok reported history).find? p = some shared)
      ↔ AnsweredSince (answer .ok reported) history p := by
  constructor
  · rintro ⟨shared, kept⟩
    induction history using List.reverseRecOn with
    | nil => cases kept
    | append_singleton history call ih =>
      rw [after_append] at kept
      cases call with
      | clear => cases kept
      | get p' =>
        rcases find?_get_cases kept with before | ⟨rfl, answered⟩
        · exact (ih before).append_get p'
        · exact ⟨history, [], shared, rfl, List.not_mem_nil, answered⟩
  · rintro ⟨earlier, later, shared, rfl, uncleared, answered⟩
    have kept : ((after .ok reported earlier).step .ok reported (.get p)).find? p = some shared :=
      find?_get_of_ok answered
    rw [after_append, List.foldl_cons]
    exact ⟨shared, find?_foldl_step kept uncleared⟩

/-! ## How many are kept -/

/-- No parameters have two entries. -/
def Distinct (cache : SystemCache Parameters) : Prop :=
  (cache.entries.map Prod.fst).Nodup

theorem find?_eq_none_iff : cache.find? p = none ↔ p ∉ cache.entries.map Prod.fst := by
  rw [find?, List.lookup_eq_none_iff, List.mem_map]
  constructor
  · rintro others ⟨entry, member, rfl⟩
    simpa using others entry member
  · intro absent entry member
    exact bne_iff_ne.mpr fun same => absent ⟨entry, member, same.symm⟩

theorem Distinct.step (distinct : cache.Distinct) (call : CacheCall) :
    (cache.step .ok reported call).Distinct := by
  cases call with
  | clear => exact List.nodup_nil
  | get p =>
    refine get_snd_induction (motive := Distinct) distinct ?_
    intro system new _
    exact List.nodup_cons.mpr ⟨find?_eq_none_iff.mp new, distinct⟩

theorem distinct_after (reported : Bool) (history : List CacheCall) :
    (after .ok reported history).Distinct :=
  List.foldlRecOn history (SystemCache.step .ok reported) (motive := Distinct) List.nodup_nil
    fun _ distinct call _ => distinct.step call

theorem Distinct.encard_eq_size (distinct : cache.Distinct) :
    {p | ∃ shared, cache.find? p = some shared}.encard = cache.size := by
  have keys : {p | ∃ shared, cache.find? p = some shared}
      = ↑(cache.entries.map Prod.fst).toFinset := by
    ext p
    rw [Set.mem_ofPred_eq, Finset.mem_coe, List.mem_toFinset, ← Option.ne_none_iff_exists', Ne,
      find?_eq_none_iff, not_not]
  rw [keys, Set.encard_coe_eq_coe_finsetCard, List.toFinset_card_of_nodup distinct,
    List.length_map]
  rfl

/-! ## Numbers -/

/-- All systems kept have numbers between `first` and the next one. -/
structure NumberedFrom (first : ℕ) (cache : SystemCache Parameters) : Prop where
  first_le_built : first ≤ cache.built
  number_mem : ∀ p shared, cache.find? p = some shared →
    first ≤ shared.number ∧ shared.number < cache.built

variable {first : ℕ}

theorem numberedFrom_clear (cache : SystemCache Parameters) :
    cache.clear.NumberedFrom cache.built :=
  ⟨Nat.le_refl _, fun _ _ kept => nomatch kept⟩

theorem NumberedFrom.step (numbered : cache.NumberedFrom first) (call : CacheCall) :
    (cache.step .ok reported call).NumberedFrom first := by
  cases call with
  | clear => exact ⟨numbered.first_le_built, fun _ _ kept => nomatch kept⟩
  | get p =>
    refine get_snd_induction (motive := NumberedFrom first) numbered ?_
    intro system _ _
    refine ⟨Nat.le_succ_of_le numbered.first_le_built, ?_⟩
    intro p' shared kept
    rw [find?_keep] at kept
    split at kept
    case isTrue =>
      obtain rfl := Option.some.inj kept
      exact ⟨numbered.first_le_built, Nat.lt_succ_self _⟩
    case isFalse =>
      obtain ⟨lower, upper⟩ := numbered.number_mem p' shared kept
      exact ⟨lower, Nat.lt_succ_of_lt upper⟩

theorem NumberedFrom.foldl_step (numbered : cache.NumberedFrom first) (reported : Bool)
    (calls : List CacheCall) :
    (calls.foldl (SystemCache.step .ok reported) cache).NumberedFrom first :=
  List.foldlRecOn calls (SystemCache.step .ok reported) (motive := NumberedFrom first) numbered
    fun _ numbered call _ => numbered.step call

theorem NumberedFrom.number_of_ok (numbered : cache.NumberedFrom first)
    (answered : (cache.get .ok reported p).1 = .ok shared) :
    first ≤ shared.number ∧ shared.number < (cache.get .ok reported p).2.built :=
  (numbered.step (.get p)).number_mem p shared (find?_get_of_ok answered)

/-- Numbers are not taken back. -/
theorem built_le_foldl_step (reported : Bool) (cache : SystemCache Parameters)
    (calls : List CacheCall) :
    cache.built ≤ (calls.foldl (step .ok reported) cache).built := by
  refine List.foldlRecOn calls (step .ok reported)
    (motive := fun later => cache.built ≤ later.built) le_rfl ?_
  intro later le call _
  cases call with
  | clear => exact le
  | get p =>
    exact get_snd_induction (motive := fun later => cache.built ≤ later.built) le
      fun _ _ _ => Nat.le_succ_of_le le

theorem numberedFrom_zero_after (reported : Bool) (history : List CacheCall) :
    (after .ok reported history).NumberedFrom 0 :=
  (numberedFrom_clear empty).foldl_step reported history

/-! ## Answers -/

variable {history between : List CacheCall} {p' : Parameters} {shared' : SharedSystem}

/-- What is handed out was built for the parameters, and tells them from all others. -/
theorem matches_of_answer_eq_ok (answered : answer .ok reported history p = .ok shared) :
    shared.system.Matches p' ↔ p' = p := by
  have handed := (sound_after reported history).get_fst p
  rw [← answer, answered] at handed
  have built : LinearSystem.build reported p = .ok shared.system :=
    Attempt.restate_eq_ok_iff.mp handed.symm
  obtain ⟨layout, -, same⟩ := LinearSystem.eq_onLayout_of_build built
  rw [same]
  exact LinearSystem.matches_onLayout_iff

/-- A request without an answer changes nothing. -/
theorem get_snd_of_error {failure : Failure CacheError}
    (failed : (cache.get .ok reported p).1 = .error failure) :
    (cache.get .ok reported p).2 = cache := by
  rcases cache.get_cases reported p with ⟨shared, -, answer⟩ | ⟨system, -, -, answer⟩ |
    ⟨failure', -, -, answer⟩
  · rw [answer]
  · rw [answer] at failed
    cases failed
  · rw [answer]

/-- A system handed out after the cache was cleared is not one that was handed out before. -/
theorem number_lt_of_cleared {before later : List CacheCall}
    (answered : (cache.get .ok reported p).1 = .ok shared) (numbered : cache.NumberedFrom first)
    (answered' : (((before ++ .clear :: later).foldl (step .ok reported)
      (cache.get .ok reported p).2).get .ok reported p').1 = .ok shared') :
    shared.number < shared'.number := by
  rw [List.foldl_append, List.foldl_cons] at answered'
  have early : shared.number < (cache.get .ok reported p).2.built :=
    (numbered.number_of_ok answered).2
  have grown := built_le_foldl_step reported (cache.get .ok reported p).2 before
  have fresh := (numberedFrom_clear
    (before.foldl (step .ok reported) (cache.get .ok reported p).2)).foldl_step reported later
  have late := (fresh.number_of_ok answered').1
  omega

/-- Two answers are one shared system exactly if they are for the same parameters, and the cache was
    not cleared in between. -/
theorem answer_eq_answer_iff (answered : answer .ok reported history p = .ok shared)
    (answered' : answer .ok reported (history ++ .get p :: between) p' = .ok shared') :
    shared' = shared ↔ p' = p ∧ .clear ∉ between := by
  constructor
  · rintro rfl
    have same : p' = p :=
      (matches_of_answer_eq_ok answered).mp ((matches_of_answer_eq_ok answered').mpr rfl)
    refine ⟨same, ?_⟩
    intro member
    obtain ⟨before, later, rfl⟩ := List.append_of_mem member
    rw [answer, after_append] at answered'
    have numbered := numberedFrom_zero_after reported history
    exact absurd (number_lt_of_cleared answered numbered answered') (Nat.lt_irrefl _)
  · rintro ⟨rfl, uncleared⟩
    have kept := find?_get_of_ok answered
    have still : answer .ok reported (history ++ .get p' :: between) p' = .ok shared := by
      rw [answer, after_append]
      exact congrArg Prod.fst (get_of_find? (find?_foldl_step kept uncleared))
    exact Except.ok.inj (answered'.symm.trans still)

end SystemCache

/-- Along every history, a cache whose keys tell parameters apart answers like the one that keeps
    systems under the parameters themselves, and thus with what building gives. A system that is
    handed out matches no other parameters; it is handed out again until the cache is cleared, and
    neither afterwards nor for other parameters. There are as many entries as parameters that were
    answered since it was cleared, and a request that fails changes nothing. -/
theorem sharing_along_history {κ : Type} [DecidableEq κ] {encode : Parameters → Except String κ}
    {key : Parameters → κ} (encodes : ∀ p, encode p = .ok (key p)) (injective : key.Injective)
    (reported : Bool) (history : List CacheCall) :
    let answer := SystemCache.answer encode reported
    let after := SystemCache.after encode reported
    (∀ p, answer history p = SystemCache.answer .ok reported history p ∧
      (answer history p).map SharedSystem.system
        = (LinearSystem.build reported p).restate CacheError.layout) ∧
    (∀ p shared, answer history p = .ok shared → ∀ p', shared.system.Matches p' ↔ p' = p) ∧
    (∀ p p' between shared shared', answer history p = .ok shared →
      answer (history ++ .get p :: between) p' = .ok shared' →
      (shared' = shared ↔ p' = p ∧ .clear ∉ between)) ∧
    (after history).size = {p | AnsweredSince answer history p}.encard ∧
    (∀ p failure, answer history p = .error failure →
      after (history ++ [.get p]) = after history) := by
  intro answer after
  have answers : answer = SystemCache.answer .ok reported :=
    SystemCache.answer_eq_answer_ok encodes injective
  have kept (history : List CacheCall) :
      after history = (SystemCache.after .ok reported history).rekey key :=
    SystemCache.after_eq_rekey encodes injective history
  rw [answers]
  refine ⟨?_, ?_, ?_, ?_, ?_⟩
  · intro p
    exact ⟨rfl, (SystemCache.sound_after reported history).get_fst p⟩
  · intro p shared answered p'
    exact SystemCache.matches_of_answer_eq_ok answered
  · intro p p' between shared shared' answered answered'
    exact SystemCache.answer_eq_answer_iff answered answered'
  · rw [kept, SystemCache.size_rekey,
      ← (SystemCache.distinct_after reported history).encard_eq_size]
    congr 1
    ext p
    exact SystemCache.exists_find?_after_iff
  · intro p failure failed
    rw [kept, kept, SystemCache.after_append]
    exact congrArg (SystemCache.rekey key) (SystemCache.get_snd_of_error failed)

/-- Two parameter sets in a cache with compact keys: asking for one of them does not change what is
    handed out for the other, but clearing the cache does. -/
theorem sharing_along_history_compactKey :
    let encode : Parameters → Except String (List UInt8) := fun p => .ok p.compactKey
    let answer := SystemCache.answer encode false
    (∀ p, encode p = .ok p.compactKey) ∧
    ∃ shared shared', answer [] .seven = .ok shared ∧
      shared.system = .onLayout .seven .seven ∧ ¬shared.system.Matches .seventeen ∧
      answer [.get .seven, .get .seventeen] .seven = .ok shared ∧
      answer [.get .seven, .clear] .seven = .ok shared' ∧ shared' ≠ shared ∧
      shared'.system = shared.system := by
  intro encode answer
  have encodes (p : Parameters) : encode p = .ok p.compactKey := rfl
  have injective := Parameters.compactKey_injective
  obtain ⟨-, only, once, -, -⟩ := sharing_along_history encodes injective false []
  have answered := SystemCache.answer_of_ok encodes injective ofParameters_seven
  obtain ⟨shared, first, system⟩ := answered []
  obtain ⟨again, second, -⟩ := answered [.get .seven, .get .seventeen]
  obtain ⟨shared', third, system'⟩ := answered [.get .seven, .clear]
  have same : again = shared := (once .seven .seven [.get .seventeen] shared again first second).mpr
    ⟨rfl, by simp⟩
  have other : shared' ≠ shared := mt (once .seven .seven [.clear] shared shared' first third).mp
    (by simp)
  have seventeen : Parameters.seventeen ≠ .seven := by decide
  exact ⟨encodes, shared, shared', first, system, mt (only .seven shared first .seventeen).mp
    seventeen, same ▸ second, third, other, system'.trans system.symm⟩

end CoinSpend
