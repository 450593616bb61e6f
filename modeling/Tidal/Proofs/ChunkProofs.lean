import Tidal.Proofs.SqueezeProofs
import Tidal.Proofs.StepsProofs
import Tidal.Proofs.WithinProofs

/-!
# One chunk at a time

With the identity all chunks are the whole pattern. From left to right they are put together by `cat`, which
plays cycle `c div n` of each; from right to left by joining over a pattern of chunk numbers, which plays one
number in each cycle and leaves the cycles of the pattern where they are.
-/

namespace Tidal

open Pattern EventF

variable {Γ α : Type} {p : Pattern Γ α} {m : Γ} {a b : Arc} {t : Time}

/-! ## From left to right -/

theorem behaviour_within_id (se : Time × Time) : behaviour (within se id p) m = behaviour p m :=
  funext fun _ => act_within_id se

theorem local_within_id (h : Local p) (se : Time × Time) : Local (within se id p) := by
  intro a m t ha hat
  rw [act_within_id, h a m t ha hat]

theorem steady_within_id (h : Steady p) (se : Time × Time) : Steady (within se id p) := by
  intro a b m t ha hb
  rw [act_within_id, act_within_id, h a b m t ha hb]

/-- How many cycles `_chunk n` is late in a cycle. -/
def chunkLate (n c : ℤ) : Time := ((c - c / n : ℤ) : Time)

theorem act_chunk_pos {n : ℤ} (hn : 0 < n) (hl : Local p) (hs : Steady p) (hat : isIn a t) :
    act (_chunk n id p) m a t = (behaviour p m (t - chunkLate n ⌊t⌋)).map
      (onWhole (ArcF.map (· + chunkLate n ⌊t⌋))) := by
  rw [_chunk, if_pos hn.le]
  set ps : List (Pattern Γ α) := ((List.range n.toNat).map Int.ofNat).map fun i : ℤ =>
    withinArc ⟨i / n, (i + 1) / n⟩ id p with hps
  have hlen : (ps.length : ℤ) = n := by
    simp [hps, hn.le]
  have hmem : ∀ q ∈ ps, ∃ se, q = within se id p := by
    intro q hq
    obtain ⟨i, _, rfl⟩ := List.mem_map.mp hq
    exact ⟨_, rfl⟩
  obtain ⟨hi, hc⟩ := turn_eq (n := ps.length) (by omega) ⌊t⌋
  have hlocal : ∀ q ∈ ps, Local q := by
    intro q hq
    obtain ⟨se, rfl⟩ := hmem q hq
    exact local_within_id hl se
  have hsteady : ∀ q ∈ ps, Steady q := by
    intro q hq
    obtain ⟨se, rfl⟩ := hmem q hq
    exact steady_within_id hs se
  obtain ⟨se, hse⟩ := hmem _ (List.getElem_mem hi)
  have hlate : chunkLate n ⌊t⌋ = (⌊t⌋ : Time) - ((⌊t⌋ / ps.length : ℤ) : Time) := by
    simp [chunkLate, hlen]
  have htime : t - ⌊t⌋ + ((⌊t⌋ / ps.length : ℤ) : Time) = t - chunkLate n ⌊t⌋ := by
    rw [hlate]
    ring
  rw [act_cat_cycle hlocal hsteady hi hc hat, hse, behaviour_within_id, htime, hlate]

/-! ## From right to left -/

/-- At every moment the pattern plays exactly one event, over one of the `n` equal steps of a cycle. -/
def Ticking (n : ℕ) (p : Pattern Γ α) : Prop :=
  ∀ m t, ∃ (k : ℤ) (v : α), behaviour p m t = {(some ⟨(k : Time) / n, ((k : Time) + 1) / n⟩, v)}

theorem ticking_fastFromList {xs : List α} (hxs : 0 < xs.length) :
    Ticking xs.length (fastFromList xs : Pattern Γ α) := by
  intro m t
  have hpos : (xs.length : Time) ≠ 0 := by exact_mod_cast hxs.ne'
  obtain ⟨hi, hc⟩ := turn_eq hxs ⌊t * xs.length⌋
  have hcast : ((⌊t * xs.length⌋ : ℤ) : Time) =
      (⌊t * xs.length⌋ / xs.length : ℤ) * xs.length + (⌊t * xs.length⌋ % xs.length).toNat := by
    exact_mod_cast hc
  refine ⟨⌊t * xs.length⌋, xs[(⌊t * xs.length⌋ % xs.length).toNat], ?_⟩
  rw [behaviour_fastFromList hi hc, hcast]
  congr 4 <;> field_simp
  ring

theorem ticking_run {n : ℕ} (hn : 1 ≤ n) : Ticking n (_run n : Pattern Γ ℤ) := by
  have hlen : ((List.range (n : ℤ).toNat).map Int.ofNat).length = n := by simp
  have hrun : Ticking ((List.range (n : ℤ).toNat).map Int.ofNat).length (_run n : Pattern Γ ℤ) :=
    ticking_fastFromList (by omega)
  rwa [hlen] at hrun

theorem regular_numbers (k : ℤ) : Regular (_run k : Pattern Γ ℤ) := regular_fastFromList _

theorem regular_run {n : Pattern Γ ℤ} (hn : Regular n) : Regular (run n) :=
  regular_unwrap (regular_fmap _ hn) (Values.fmap regular_numbers n)

/-- A step of a cycle that is being played lies inside of the cycle. -/
theorem sect_cycle_step {n : ℕ} (hn : 1 ≤ n) {k : ℤ} (h : isIn ⟨(k : Time) / n, ((k : Time) + 1) / n⟩ t) :
    sect (timeToCycleArc t) ⟨(k : Time) / n, ((k : Time) + 1) / n⟩ =
      ⟨(k : Time) / n, ((k : Time) + 1) / n⟩ := by
  have hn' : (0 : Time) < n := by exact_mod_cast hn
  obtain ⟨h1, h2⟩ := h
  simp only at h1 h2
  rw [div_le_iff₀ hn'] at h1
  rw [lt_div_iff₀ hn'] at h2
  have hk : ⌊t * n⌋ = k := Int.floor_eq_iff.mpr ⟨h1, h2⟩
  have hfloor : k / (n : ℤ) = ⌊t⌋ := by rw [← hk, floor_mul_div (by omega)]
  have hle : ⌊t⌋ * n ≤ k := by rw [← hfloor]; exact Int.ediv_mul_le k (by omega)
  have hlt : k < (⌊t⌋ + 1) * n := by
    rw [← hfloor]
    exact Int.lt_ediv_add_one_mul_self k (by omega)
  have hle' : (sam t) * n ≤ k := by unfold sam; exact_mod_cast hle
  have hlt' : (k : Time) + 1 ≤ (sam t + 1) * n := by unfold sam; exact_mod_cast hlt
  simp only [sect, timeToCycleArc]
  rw [max_eq_right (by rw [le_div_iff₀ hn']; exact hle'), min_eq_right (by rw [div_le_iff₀ hn']; exact hlt')]

theorem ticking_run_pure {n : ℕ} (hn : 1 ≤ n) : Ticking n (run (Pattern.pure (n : ℤ)) : Pattern Γ ℤ) := by
  intro m t
  obtain ⟨k, v, hrun⟩ := ticking_run hn (Γ := Γ) m t
  refine ⟨k, v, ?_⟩
  obtain ⟨w, hw, hin⟩ := (regular_numbers n).toCoherent.wholeIn_behaviour (hrun ▸ Multiset.mem_singleton_self _)
  obtain rfl := Option.some.inj hw
  rw [behaviour, run, act_bind (regular_pure _).toCoherent (fun x => (regular_numbers x).toCoherent) (isIn_now t),
    act_pure _ (isIn_now t), TaggedBag.bind_singleton, hrun, Multiset.map_singleton, meet,
    sect_cycle_step hn hin]

/-- Reversed cycles are cut into the same steps. -/
theorem Ticking.rev {n : ℕ} (hn : 1 ≤ n) {q : Pattern Γ α} (hl : Local q) (hs : Steady q)
    (h : Ticking n q) : Ticking n (rev q) := by
  intro m t
  have hn' : (n : Time) ≠ 0 := by exact_mod_cast (by omega : n ≠ 0)
  obtain ⟨u, hlt, hult, hu⟩ := exists_actLeft_eq q m ⟨mirrored t - 1, mirrored t⟩ (sub_one_lt (mirrored t))
  obtain ⟨k, v, hq⟩ := h m u
  have hjust : justBefore q m (mirrored t) = {(some ⟨(k : Time) / n, ((k : Time) + 1) / n⟩, v)} := by
    rw [justBefore, hu, hs.act_eq m ⟨hlt.le, hult⟩, hq]
  refine ⟨(2 * ⌊t⌋ + 1) * n - k - 1, v, ?_⟩
  rw [behaviour, act_rev_justBefore hl hs (isIn_now t), hjust, Multiset.map_singleton]
  simp only [onWhole, Option.map_some, mirrorArc, sam]
  push_cast
  congr 4 <;> field_simp <;> ring

/-- Slowed down by the number of steps in a cycle, each step is a cycle. -/
theorem Ticking.slow {n : ℕ} (hn : 1 ≤ n) {q : Pattern Γ α} (hq : Regular q) (h : Ticking n q) (m : Γ)
    (hat : isIn a t) : ∃ v, act (_slow n q) m a t = {(some (timeToCycleArc t), v)} := by
  have hn' : (0 : Time) < n := by exact_mod_cast hn
  have hr : (0 : Time) < 1 / n := by positivity
  obtain ⟨k, v, hqt⟩ := h m (t * (1 / n))
  refine ⟨v, ?_⟩
  have hslow : act (_slow n q) m a t = {(some ⟨(k : Time), (k : Time) + 1⟩, v)} := by
    rw [_slow, if_neg hn'.ne', fast_of_pos hr, act_fastForward hr,
      hq.steady.act_eq m (isIn_map_mul hr hat), hqt, Multiset.map_singleton]
    simp only [onWhole, Option.map_some, ArcF.map]
    congr 4 <;> field_simp
  have hreg : Regular (_slow n q) := by
    rw [_slow, if_neg hn'.ne']
    exact regular_fast _ hq
  -- the cycle of the moment is the only one that holds it
  obtain ⟨w, hw, hin⟩ := hreg.toCoherent.wholeIn_behaviour (m := m) (t := t)
    (by rw [← hreg.steady.act_eq m hat, hslow]; exact Multiset.mem_singleton_self _)
  obtain rfl := Option.some.inj hw
  have hsam : sam t = k := sam_eq hin.1 hin.2
  rw [hslow, timeToCycleArc, hsam]

theorem settled_within_id (hp : Seamless p) (se : Time × Time) : Settled (within se id p) where
  digital := by
    intro a m ha e he
    rw [within, stack_query] at he
    obtain ⟨q, hq, he⟩ := List.mem_flatMap.mp he
    rcases List.mem_cons.mp hq with rfl | hq
    · exact hp.digital a m ha e (List.mem_filter.mp he).1
    · obtain rfl := List.mem_singleton.mp hq
      exact hp.digital a m ha e (List.mem_filter.mp he).1
  inWhole := by
    intro a m ha e he
    rw [within, stack_query] at he
    obtain ⟨q, hq, he⟩ := List.mem_flatMap.mp he
    rcases List.mem_cons.mp hq with rfl | hq
    · exact hp.inWhole a m ha e (List.mem_filter.mp he).1
    · obtain rfl := List.mem_singleton.mp hq
      exact hp.inWhole a m ha e (List.mem_filter.mp he).1
  steady := steady_within_id hp.steady se

/-- A whole inside of one cycle is what is left of it in the cycle of a moment that it holds. -/
theorem Cyclewise.meet_cycle (hp : Cyclewise p) {x : Option Arc × α} (hx : x ∈ behaviour p m t) :
    meet (some (timeToCycleArc t)) x.1 = x.1 := by
  obtain ⟨e, he, ht, rfl⟩ := mem_activeIn.mp hx
  obtain ⟨w, hw, hin⟩ := hp.seamless.whole_isIn hx
  simp only at hw
  obtain ⟨k, hk⟩ := hp.single ⟨t, t + 1⟩ m (by simp) e he w hw
  have hkt := hk.isIn hin
  have hsam : sam t = k := sam_eq hkt.1 hkt.2
  obtain ⟨h1, _, h3⟩ := hk
  rw [hw, meet, sect, timeToCycleArc, hsam, max_eq_right h1, min_eq_right h3]

theorem act_chunk_neg {n : ℤ} (hn : n < 0) (hp : Cyclewise p) (hat : isIn a t) :
    act (_chunk n id p) m a t = behaviour p m t := by
  rw [_chunk, if_neg (not_le.mpr hn)]
  obtain ⟨k, hk⟩ := Int.eq_ofNat_of_zero_le (show 0 ≤ -n by omega)
  have hk1 : 1 ≤ k := by omega
  have hrun : Regular (run (Pattern.pure (k : ℤ)) : Pattern Γ ℤ) := regular_run (regular_pure _)
  have hrev : Regular (rev (run (Pattern.pure (k : ℤ))) : Pattern Γ ℤ) :=
    (wellFormed_rev hrun.wellFormed).regular (steady_rev hrun.wellFormed hrun.steady)
  have htick : Ticking k (rev (run (Pattern.pure (k : ℤ))) : Pattern Γ ℤ) :=
    (ticking_run_pure hk1).rev hk1 hrun.seamless.isLocal hrun.steady
  obtain ⟨i, hi⟩ := htick.slow hk1 hrev m hat
  have hslow : Regular (_slow k (rev (run (Pattern.pure (k : ℤ)))) : Pattern Γ ℤ) := by
    rw [_slow, if_neg (by exact_mod_cast (by omega : k ≠ 0))]
    exact regular_fast _ hrev
  have hjoin := act_bind_settled (m := m) (f := fun i : ℤ => withinArc ⟨i / (k : Time), (i + 1) / (k : Time)⟩ id p)
    hslow.toCoherent (fun x => settled_within_id hp.seamless _) hat
  rw [hk, Int.cast_natCast, hjoin, hi, TaggedBag.bind_singleton]
  have hwithin : behaviour (withinArc ⟨i / (k : Time), (i + 1) / (k : Time)⟩ id p) m t = behaviour p m t :=
    act_within_id _
  rw [hwithin]
  conv_rhs => rw [← Multiset.map_id (behaviour p m t)]
  refine Multiset.map_congr rfl fun x hx => ?_
  rw [hp.meet_cycle hx]
  rfl

/-- With the identity, `_chunk` changes nothing at a moment exactly if it goes from right to left, or if the
pattern plays at the moment what it plays in the earlier cycle that `cat` takes. -/
theorem chunk_id_iff (n : ℤ) (hn : n ≠ 0) (p : Pattern Γ α) (hp : Cyclewise p) (m : Γ) (t : Time) :
    (∀ a, isIn a t → act (_chunk n id p) m a t = behaviour p m t) ↔
      n < 0 ∨ behaviour p m t = (behaviour p m (t - chunkLate n ⌊t⌋)).map
        (onWhole (ArcF.map (· + chunkLate n ⌊t⌋))) := by
  rcases lt_or_gt_of_ne hn with hneg | hpos
  · exact ⟨fun _ => Or.inl hneg, fun _ a hat => act_chunk_neg hneg hp hat⟩
  · have hact := fun a (hat : isIn a t) =>
      act_chunk_pos (m := m) hpos hp.cutFree.isLocal hp.cutFree.steady hat
    constructor
    · intro h
      right
      rw [← hact _ (isIn_now t), h _ (isIn_now t)]
    · intro h a hat
      rcases h with hneg | h
      · exact absurd hpos (not_lt.mpr hneg.le)
      · rw [hact a hat, ← h]

theorem cyclewise_onlyIn (s : Time) (x : α) : Cyclewise (onlyIn s x : Pattern Γ α) where
  digital := (settled_onlyIn s x).digital
  inWhole := (settled_onlyIn s x).inWhole
  single := by
    intro a m ha e he
    exact (cyclewise_pure x).single a m ha e (List.mem_filter.mp he).1
  cutFree := by
    refine cutFree_iff.mpr ⟨(settled_onlyIn s x).steady, fun a m t ha hat => ?_⟩
    refine activeIn_eq_zero_of_within (fun e he => ?_) hat
    exact (regular_pure x).inQuery a m ha.le e (List.mem_filter.mp he).1

theorem chunk_id_iff_onlyIn :
    (∀ a, isIn a 1 → act (_chunk 2 id (onlyIn 1 0 : Pattern Unit ℕ)) () a 1 =
        behaviour (onlyIn 1 0) () 1) ↔
      (2 : ℤ) < 0 ∨ behaviour (onlyIn 1 0 : Pattern Unit ℕ) () 1 =
        (behaviour (onlyIn 1 0) () (1 - chunkLate 2 ⌊(1 : Time)⌋)).map
          (onWhole (ArcF.map (· + chunkLate 2 ⌊(1 : Time)⌋))) :=
  chunk_id_iff 2 (by decide) (onlyIn 1 0) (cyclewise_onlyIn 1 0) () 1

/-- A note in the second cycle only: with two chunks, the second cycle plays the first one of the pattern. -/
theorem chunk_drops_cycle :
    Cyclewise (onlyIn 1 0 : Pattern Unit ℕ) ∧
    behaviour (onlyIn 1 0 : Pattern Unit ℕ) () 1 = {(some ⟨1, 2⟩, 0)} ∧
    act (_chunk 2 id (onlyIn 1 0 : Pattern Unit ℕ)) () ⟨1, 2⟩ 1 = 0 := by
  refine ⟨cyclewise_onlyIn 1 0, by with_unfolding_all decide, ?_⟩
  have hzero : behaviour (onlyIn 1 0 : Pattern Unit ℕ) () (1 - chunkLate 2 ⌊(1 : Time)⌋) = 0 := by
    with_unfolding_all decide
  rw [act_chunk_pos (by decide) (cyclewise_onlyIn 1 0).cutFree.isLocal
    (cyclewise_onlyIn 1 0).cutFree.steady (show isIn ⟨1, 2⟩ 1 by norm_num [isIn]), hzero]
  rfl

end Tidal
