/-
Progress of a deterministic system under inputs that nothing is known of. A measure that no allowed input raises, and
that the productive ones lower, brings the system to its goal within as many productive inputs as the measure counts.
-/

namespace Wnc.Lib

/-- What a measure does while the goal is not reached, in the states of an invariant and under the inputs allowed. -/
structure Lowers {S A : Type} (step : S → A → S) (Inv goal : S → Prop) (allowed : S → A → Prop)
    (productive : A → Bool) (measure : S → Nat) : Prop where
  keeps : ∀ s a, Inv s → ¬goal s → allowed s a → goal (step s a) ∨ Inv (step s a)
  holds : ∀ s a, Inv s → ¬goal s → allowed s a → goal (step s a) ∨ measure (step s a) ≤ measure s
  lowers : ∀ s a, Inv s → ¬goal s → allowed s a → productive a = true →
    goal (step s a) ∨ measure (step s a) < measure s

namespace Lowers

variable {S A : Type} {step : S → A → S} {Inv goal : S → Prop} {allowed : S → A → Prop} {productive : A → Bool}
  {measure : S → Nat}

/-- The progress rule: after more productive inputs than the measure counts, the goal has been reached, under the
invariant until then. -/
theorem reaches (h : Lowers step Inv goal allowed productive measure) {s : S} (hs : Inv s) {as : List A}
    (ha : ∀ n a, as[n]? = some a → allowed ((as.take n).foldl step s) a) (hlong : measure s < as.countP productive) :
    ∃ n ≤ as.length, goal ((as.take n).foldl step s) ∧ ∀ k < n, Inv ((as.take k).foldl step s) := by
  induction as generalizing s with
  | nil => exact absurd hlong (Nat.not_lt_zero _)
  | cons a as ih =>
    by_cases hgoal : goal s
    · exact ⟨0, Nat.zero_le _, hgoal, fun k hk => absurd hk (Nat.not_lt_zero k)⟩
    have hallowed := ha 0 a rfl
    -- the first input reaches the goal, or leaves enough productive ones for what is left of the measure
    have hnext : goal (step s a) ∨ measure (step s a) < as.countP productive := by
      rw [List.countP_cons] at hlong
      split at hlong
      · rename_i hproductive
        exact (h.lowers s a hs hgoal hallowed hproductive).imp_right fun hlt => by omega
      · exact (h.holds s a hs hgoal hallowed).imp_right fun hle => by omega
    by_cases hreached : goal (step s a)
    · exact ⟨1, Nat.succ_le_succ (Nat.zero_le _), hreached, fun k hk => by rw [Nat.lt_one_iff.1 hk]; exact hs⟩
    · have hkept := (h.keeps s a hs hgoal hallowed).resolve_left hreached
      obtain ⟨n, hn, hlater, huntil⟩ := ih hkept (fun n b hb => ha (n + 1) b hb) (hnext.resolve_left hreached)
      refine ⟨n + 1, Nat.succ_le_succ hn, hlater, fun k hk => ?_⟩
      cases k with
      | zero => exact hs
      | succ k => exact huntil k (Nat.lt_of_succ_lt_succ hk)

end Lowers

end Wnc.Lib
