import Tidal.Proofs.MeaningProofs

/-!
# Proofs: transformers take a stack apart

Every transformer treats the events of a pattern independently of those that sound at the same time: what it
makes of a stack is the stack of what it makes of the layers. For this its meaning is shown to be additive,
on the behaviours that patterns have.
-/

namespace Tidal

open EventF Pattern

variable {Γ α β γ ι : Type} {m : Γ}

namespace Behaviour

/-! ## Sums of behaviours -/

/-- What is played before any moment settles before the moment. -/
def Settles (S : Behaviour α) : Prop := ∀ u, ∃ x, ∃ v < u, ∀ t, v < t → t < u → S t = x

theorem moved_add (f g : Time → Time) (S T : Behaviour α) :
    moved f g (S + T) = moved f g S + moved f g T :=
  funext fun _ => Multiset.map_add ..

theorem before_add {S T : Behaviour α} (hS : Settles S) (hT : Settles T) :
    before (S + T) = before S + before T := by
  funext u
  obtain ⟨x, v, hv, hx⟩ := hS u
  obtain ⟨y, v', hv', hy⟩ := hT u
  rw [Pi.add_apply, before_eq hv hx, before_eq hv' hy]
  refine before_eq (max_lt hv hv') fun t ht htu => ?_
  rw [Pi.add_apply, hx t ((le_max_left _ _).trans_lt ht) htu, hy t ((le_max_right _ _).trans_lt ht) htu]

theorem rev_add {S T : Behaviour α} (hS : Settles S) (hT : Settles T) : rev (S + T) = rev S + rev T := by
  funext t
  simp only [rev, before_add hS hT, Pi.add_apply, Multiset.map_add]

theorem choose_add (test : ℤ → Bool) (S S' T T' : Behaviour α) :
    choose test (S + S') (T + T') = choose test S T + choose test S' T' := by
  funext t
  simp only [choose, Pi.add_apply]
  split_ifs <;> rfl

theorem getD_map_add (F G : ι → Behaviour α) (xs : List ι) (i : ℕ) :
    (xs.map fun x => F x + G x).getD i 0 = (xs.map F).getD i 0 + (xs.map G).getD i 0 := by
  by_cases hi : i < xs.length
  · simp [hi]
  · simp [not_lt.mp hi]

theorem cat_add (F G : ι → Behaviour α) (xs : List ι) :
    cat (xs.map fun x => F x + G x) = cat (xs.map F) + cat (xs.map G) := by
  funext t
  simp only [cat, List.length_map, Pi.add_apply]
  rw [getD_map_add, Pi.add_apply, Multiset.map_add]

theorem keep_add (test : Arc → Bool) (S T : Behaviour α) : keep test (S + T) = keep test S + keep test T :=
  funext fun _ => Multiset.filter_add ..

theorem each_add (B : Behaviour β) (f g : β → Behaviour α) :
    each B (fun x => f x + g x) = each B f + each B g :=
  funext fun _ => Multiset.bind_add ..

theorem struct_add (B : Behaviour Bool) (S T : Behaviour α) :
    struct B (S + T) = struct B S + struct B T := by
  funext t
  simp only [struct, Pi.add_apply, Multiset.map_add, Multiset.bind_add]

theorem both_add_left (w : Option Arc → Option Arc → Option Arc) (op : α → β → γ) (S T : Behaviour α)
    (B : Behaviour β) : both w op (S + T) B = both w op S B + both w op T B :=
  funext fun _ => Multiset.add_bind ..

theorem both_add_right (w : Option Arc → Option Arc → Option Arc) (op : β → α → γ) (B : Behaviour β)
    (S T : Behaviour α) : both w op B (S + T) = both w op B S + both w op B T := by
  funext t
  simp only [both, Pi.add_apply, Multiset.map_add, Multiset.bind_add]

theorem squeeze_add (S T : Behaviour β) (f : β → Behaviour α) :
    squeeze (S + T) f = squeeze S f + squeeze T f :=
  funext fun _ => Multiset.add_bind ..

end Behaviour

/-! ## What patterns play -/

/-- Some strictly regular pattern plays `S` when the controls are `m`. -/
def Audible (m : Γ) (S : Behaviour α) : Prop := ∃ p : Pattern Γ α, StrictlyRegular p ∧ behaviour p m = S

theorem Audible.means {f : Pattern Γ α → Pattern Γ α} {F : Γ → Behaviour α → Behaviour α}
    (hf : Means f F) {S : Behaviour α} (h : Audible m S) : Audible m (F m S) := by
  obtain ⟨p, hp, rfl⟩ := h
  have hplays := hf.sounds hp.sounds
  exact ⟨f p, hplays.strictlyRegular, hplays.eq m⟩

theorem Audible.add {S T : Behaviour α} (hS : Audible m S) (hT : Audible m T) : Audible m (S + T) := by
  obtain ⟨p, hp, rfl⟩ := hS
  obtain ⟨q, hq, rfl⟩ := hT
  have hplays := sounds_both hp.sounds hq.sounds
  exact ⟨stack [p, q], hplays.strictlyRegular, hplays.eq m⟩

theorem Audible.settles {S : Behaviour α} (h : Audible m S) : Behaviour.Settles S := by
  obtain ⟨p, hp, rfl⟩ := h
  exact fun u => ⟨justBefore p m u, hp.2.settles m u⟩

/-! ## Additive meanings -/

/-- On what patterns play, `F` takes sums apart. -/
def Distributes (m : Γ) (F : Behaviour α → Behaviour α) : Prop :=
  ∀ S T, Audible m S → Audible m T → F (S + T) = F S + F T

namespace Distributes

variable {F G : Behaviour α → Behaviour α}

theorem self : Distributes m fun S : Behaviour α => S := fun _ _ _ _ => rfl

theorem zero : Distributes m fun _ : Behaviour α => 0 := fun _ _ _ _ => (add_zero 0).symm

/-- So of nothing it makes nothing. -/
theorem eq_zero (hF : Distributes m F) : F 0 = 0 := by
  have hplay : Audible m (0 : Behaviour α) := ⟨silence, ⟨wellFormed_silence, steady_silence⟩, rfl⟩
  have hsum := hF 0 0 hplay hplay
  funext t
  have ht := congrFun hsum t
  rw [add_zero, Pi.add_apply] at ht
  exact left_eq_add.mp ht

theorem sum_eq (hF : Distributes m F) {Ss : List (Behaviour α)} (hS : ∀ S ∈ Ss, Audible m S) :
    Audible m Ss.sum ∧ F Ss.sum = (Ss.map F).sum := by
  induction Ss with
  | nil => exact ⟨⟨silence, ⟨wellFormed_silence, steady_silence⟩, rfl⟩, hF.eq_zero⟩
  | cons S Ss ih =>
    obtain ⟨hplay, hsum⟩ := ih fun T hT => hS T (List.mem_cons_of_mem _ hT)
    have hhead := hS S (List.mem_cons_self ..)
    refine ⟨hhead.add hplay, ?_⟩
    rw [List.sum_cons, List.map_cons, List.sum_cons, hF S _ hhead hplay, hsum]

theorem comp (hF : Distributes m F) (hG : Distributes m G) (hplay : ∀ S, Audible m S → Audible m (G S)) :
    Distributes m fun S => F (G S) := by
  intro S T hS hT
  show F (G (S + T)) = F (G S) + F (G T)
  rw [hG S T hS hT, hF _ _ (hplay S hS) (hplay T hT)]

theorem add (hF : Distributes m F) (hG : Distributes m G) : Distributes m fun S => F S + G S := by
  intro S T hS hT
  show F (S + T) + G (S + T) = F S + G S + (F T + G T)
  rw [hF S T hS hT, hG S T hS hT, add_add_add_comm]

theorem choose (test : ℤ → Bool) (hF : Distributes m F) (hG : Distributes m G) :
    Distributes m fun S => Behaviour.choose test (F S) (G S) := by
  intro S T hS hT
  show Behaviour.choose test (F (S + T)) (G (S + T)) = _
  rw [hF S T hS hT, hG S T hS hT, Behaviour.choose_add]

section Families

variable {F : ι → Behaviour α → Behaviour α}

theorem sum (h : ∀ x, Distributes m (F x)) (xs : List ι) :
    Distributes m fun S => (xs.map fun x => F x S).sum := by
  intro S T hS hT
  show (xs.map fun x => F x (S + T)).sum = _
  simp only [h _ S T hS hT]
  exact List.sum_map_add

theorem cat (h : ∀ x, Distributes m (F x)) (xs : List ι) :
    Distributes m fun S => Behaviour.cat (xs.map fun x => F x S) := by
  intro S T hS hT
  show Behaviour.cat (xs.map fun x => F x (S + T)) = _
  simp only [h _ S T hS hT]
  exact Behaviour.cat_add _ _ xs

theorem each (B : Behaviour ι) (h : ∀ x, Distributes m (F x)) :
    Distributes m fun S => Behaviour.each B fun x => F x S := by
  intro S T hS hT
  show Behaviour.each B (fun x => F x (S + T)) = _
  simp only [h _ S T hS hT]
  exact Behaviour.each_add B _ _

/-- One of two functions for each boolean event. -/
theorem switch {F G : Behaviour α → Behaviour α} (B : Behaviour Bool) (hF : Distributes m F)
    (hG : Distributes m G) : Distributes m fun S => Behaviour.each B fun x => if x then F S else G S := by
  refine each (F := fun (x : Bool) S => if x then F S else G S) B fun x => ?_
  cases x
  · exact hG
  · exact hF

end Families

theorem rotL (t : Time) : Distributes m (Behaviour.rotL t : Behaviour α → Behaviour α) :=
  fun _ _ _ _ => Behaviour.moved_add ..

theorem rotR (t : Time) : Distributes m (Behaviour.rotR t : Behaviour α → Behaviour α) := rotL (-t)

theorem keep (test : Arc → Bool) : Distributes m (Behaviour.keep test : Behaviour α → Behaviour α) :=
  fun S T _ _ => Behaviour.keep_add test S T

theorem rev : Distributes m (Behaviour.rev : Behaviour α → Behaviour α) :=
  fun _ _ hS hT => Behaviour.rev_add hS.settles hT.settles

theorem fast (r : Time) : Distributes m (Behaviour.fast r : Behaviour α → Behaviour α) := by
  intro S T hS hT
  unfold Behaviour.fast
  by_cases hr : r = 0
  · simp only [if_pos hr]
    exact (add_zero 0).symm
  · simp only [if_neg hr]
    by_cases hneg : r < 0
    · have hforward : Means (_fastForward (-r)) fun (_ : Γ) (S : Behaviour α) =>
          Behaviour.moved (· / -r) (· * -r) S := ⟨sounds_fastForward (neg_pos.mpr hneg)⟩
      simp only [if_pos hneg, Behaviour.moved_add]
      exact rev _ _ (hS.means hforward) (hT.means hforward)
    · simp only [if_neg hneg]
      exact Behaviour.moved_add ..

theorem slow (r : Time) : Distributes m (Behaviour.slow r : Behaviour α → Behaviour α) := by
  intro S T hS hT
  unfold Behaviour.slow
  by_cases hr : r = 0
  · simp only [if_pos hr]
    exact (add_zero 0).symm
  · simp only [if_neg hr]
    exact fast _ S T hS hT

theorem fastCat {F : ι → Γ → Behaviour α → Behaviour α} {f : ι → Pattern Γ α → Pattern Γ α}
    (hf : ∀ x, Means (f x) (F x)) (h : ∀ x, Distributes m (F x m)) (xs : List ι) :
    Distributes m fun S => Behaviour.fastCat (xs.map fun x => F x m S) := by
  have hcat : Means (fun p => Pattern.cat (xs.map fun x => f x p)) fun m S =>
      Behaviour.cat (xs.map fun x => F x m S) := ⟨fun h => sounds_cat fun x _ => (hf x).sounds h⟩
  have heq : (fun S => Behaviour.fastCat (xs.map fun x => F x m S)) = fun S =>
      Behaviour.fast xs.length (Behaviour.cat (xs.map fun x => F x m S)) :=
    funext fun S => by rw [Behaviour.fastCat, List.length_map]
  rw [heq]
  exact comp (fast _) (cat h xs) fun S hS => hS.means hcat

/-- The same function in the steps of a rhythm that are onsets. -/
theorem onsets (bs : List Bool) : Distributes m fun S : Behaviour α =>
    Behaviour.fastCat (bs.map fun b => if b then S else 0) := by
  refine fastCat (f := fun (b : Bool) p => if b then p else silence)
    (F := fun (b : Bool) _ S => if b then S else 0) (fun b => ⟨fun h => ?_⟩) (fun b => ?_) bs
  · cases b
    · exact sounds_silence
    · exact h
  · cases b
    · exact zero
    · exact self

theorem rests (bs : List Bool) : Distributes m fun S : Behaviour α =>
    Behaviour.fastCat (bs.map fun b => if b then 0 else S) := by
  refine fastCat (f := fun (b : Bool) p => if b then silence else p)
    (F := fun (b : Bool) _ S => if b then 0 else S) (fun b => ⟨fun h => ?_⟩) (fun b => ?_) bs
  · cases b
    · exact h
    · exact sounds_silence
  · cases b
    · exact self
    · exact zero

theorem euclidean (n k : ℤ) : Distributes m (Fx.mean.euclidean n k : Behaviour α → Behaviour α) := by
  unfold Fx.mean.euclidean
  by_cases hn : 0 ≤ n
  · simp only [if_pos hn]
    exact onsets _
  · simp only [if_neg hn]
    exact rests _

section Repeated

variable {f : Pattern Γ α → Pattern Γ α} {F : Γ → Behaviour α → Behaviour α}

theorem iterate (hF : Distributes m (F m)) (hf : Means f F) (i : ℕ) : Distributes m (F m)^[i] := by
  induction i with
  | zero => exact self
  | succ i ih =>
    have heq : (F m)^[i + 1] = fun S => F m ((F m)^[i] S) :=
      funext fun S => Function.iterate_succ_apply' (F m) i S
    rw [heq]
    exact comp hF ih fun S hS => hS.means (hf.iterate i)

theorem foldEvery (hF : Distributes m (F m)) (hf : Means f F) (ns : List ℤ) : Distributes m fun S =>
    ns.foldr (fun n S => Behaviour.choose (fun c => n ∣ c ∧ n ≠ 0) (F m S) S) S := by
  induction ns with
  | nil => exact self
  | cons n ns ih =>
    have hn : Distributes m fun S => Behaviour.choose (fun c => n ∣ c ∧ n ≠ 0) (F m S) S :=
      choose _ hF self
    exact comp hn ih fun S hS => hS.means (hf.foldEvery ns)

/-- The echoes of a sum are the sums of the echoes. -/
theorem _echoWith (hF : Distributes m (F m)) (hf : Means f F) (t : Time) (k : ℕ) :
    Distributes m fun S => (fun T => F m (Behaviour.rotR t T) + S)^[k] S := by
  have hrot : Means (Pattern.rotR t) fun (_ : Γ) (S : Behaviour α) => Behaviour.rotR t S := ⟨sounds_rotR t⟩
  have hecho : ∀ k : ℕ, Means (Pattern._echoWith (k + 1) t f) fun m S =>
      (fun T => F m (Behaviour.rotR t T) + S)^[k] S := by
    intro k
    simpa using Means._echoWith (k + 1) t hf
  induction k with
  | zero => exact self
  | succ k ih =>
    intro S T hS hT
    have hsum : (fun U => F m (Behaviour.rotR t U) + (S + T))^[k] (S + T) =
        (fun U => F m (Behaviour.rotR t U) + S)^[k] S + (fun U => F m (Behaviour.rotR t U) + T)^[k] T :=
      ih S T hS hT
    have hS' := hS.means (hecho k)
    have hT' := hT.means (hecho k)
    simp only [Function.iterate_succ_apply']
    rw [hsum, rotR t _ _ hS' hT', hF _ _ (hS'.means hrot) (hT'.means hrot), add_add_add_comm]

end Repeated

theorem palindrome : Distributes m fun S : Behaviour α => Behaviour.cat [S, Behaviour.rev S] := by
  refine cat (F := fun (b : Bool) S => if b then Behaviour.rev S else S) (fun b => ?_) [false, true]
  cases b
  · exact self
  · exact rev

theorem brak : Distributes m fun S : Behaviour α =>
    Behaviour.choose (fun c => ¬ Even c) (Behaviour.rotR (1 / 4) (Behaviour.fastCat [S, 0])) S := by
  have hhalf : Means (fun p : Pattern Γ α => Pattern.fastCat [p, silence]) fun _ S => Behaviour.fastCat [S, 0] :=
    ⟨sounds_rests [false, true]⟩
  exact choose _ (comp (rotR _) (rests [false, true]) fun S hS => hS.means hhalf) self

theorem repeatCycles (n : ℕ) : Distributes m fun S : Behaviour α => Behaviour.cat (List.replicate n S) := by
  have hcat : Distributes m fun S : Behaviour α => Behaviour.cat ((List.range n).map fun _ => S) :=
    cat (fun _ => self) _
  simpa using hcat

end Distributes

/-- What a transformer means takes sums apart. -/
theorem Fx.distributes (x : Fx Γ α) (m : Γ) : Distributes m (x.mean m) := by
  have hrot : ∀ (t : Time) (S : Behaviour α), Audible m S → Audible m (Behaviour.rotR t S) :=
    fun t S hS => hS.means (F := fun _ => Behaviour.rotR t) ⟨sounds_rotR t⟩
  have hslow : ∀ (t : Time) (S : Behaviour α), Audible m S → Audible m (Behaviour.slow t S) :=
    fun t S hS => hS.means (F := fun _ => Behaviour.slow t) ⟨sounds_slow t⟩
  have hkeep : ∀ (x : ℚ) (S : Behaviour α), Audible m S →
      Audible m (Behaviour.keep (fun w => luck w ≤ x) S) :=
    fun x S hS => hS.means (F := fun _ => Behaviour.keep _) ⟨sounds_unDegradeBy x⟩
  have hplay : ∀ (f : Fx Γ α) (S : Behaviour α), Audible m S → Audible m (f.mean m S) :=
    fun f S hS => hS.means f.means
  induction x with
  | id => exact .self
  | comp f g ihf ihg => rw [mean]; exact .comp ihf ihg (hplay g)
  | fast r => exact .fast r
  | slow r => exact .slow r
  | rotL t => exact .rotL t
  | rotR t => exact .rotR t
  | rev => exact .rev
  | when test f ih => exact .choose test ih .self
  | every n f ih => rw [mean]; exact .choose _ ih .self
  | every' n o hn f ih => rw [mean]; exact .choose _ ih .self
  | foldEvery ns f ih => exact .foldEvery ih f.means ns
  | someCyclesBy x f ih => rw [mean]; exact .choose _ ih .self
  | ifp test f g ihf ihg => exact .choose test ihf ihg
  | palindrome => exact .palindrome
  | brak => exact .brak
  | iter n => exact .cat (fun i : ℕ => .rotL (i / n)) _
  | iter' n => exact .cat (fun i : ℕ => .rotR (i / n)) _
  | superimpose f ih => exact .add .self ih
  | off t f ih => rw [mean]; exact .add .self (.comp ih (.rotR t) (hrot t))
  | stutter n t => exact .sum (fun i : ℕ => .rotR (t * i)) _
  | echoWith n t f ih => exact ._echoWith ih f.means t _
  | ghostWith t f ih =>
    rw [mean]
    have hfirst : Distributes m fun S => S + Behaviour.rotR (t * (3 / 2)) (f.mean m S) :=
      .add .self (.comp (.rotR _) ih (hplay f))
    have hplay₁ : ∀ S, Audible m S → Audible m (S + Behaviour.rotR (t * (3 / 2)) (f.mean m S)) :=
      fun S hS => hS.add (hrot _ _ (hplay f S hS))
    have hplay₂ : ∀ S, Audible m S →
        Audible m (f.mean m (S + Behaviour.rotR (t * (3 / 2)) (f.mean m S))) :=
      fun S hS => hplay f _ (hplay₁ S hS)
    exact .add hfirst (.comp (.rotR _) (.comp ih hfirst hplay₁) hplay₂)
  | soak n f ih => exact .cat (fun i => ih.iterate f.means i) _
  | repeatCycles n => exact .repeatCycles _
  | spread f xs ih => exact .cat ih xs
  | fastspread f xs ih => exact .fastCat (fun x => (f x).means) ih xs
  | layer f xs ih => exact .sum ih xs
  | inside n f ih =>
    rw [mean]
    exact .comp (.fast n) (.comp ih (.slow n) (hslow n)) fun S hS => hplay f _ (hslow n S hS)
  | outside n hn f ih =>
    rw [mean]
    exact .comp (.fast _) (.comp ih (.slow _) (hslow _)) fun S hS => hplay f _ (hslow _ S hS)
  | euclid n k => exact .euclidean n k
  | euclidInv n k => exact .euclidean (-n) k
  | euclidFull n k f g ihf ihg =>
    rw [mean]
    exact .add (.comp (.euclidean n k) ihf (hplay f)) (.comp (.euclidean (-n) k) ihg (hplay g))
  | euclidOff n k s =>
    rw [mean]
    by_cases hk : k = 0
    · simp only [if_pos hk]
      exact .zero
    · simp only [if_neg hk]
      exact .comp (.rotL _) (.euclidean n k) fun S hS =>
        hS.means (F := fun _ => Fx.mean.euclidean n k) (._euclid n k)
  | within s e f ih => rw [mean]; exact .add (.comp (.keep _) ih (hplay f)) (.keep _)
  | mask b => rw [mean]; exact .switch _ .self .zero
  | struct b => exact fun S T _ _ => Behaviour.struct_add _ S T
  | sew b f g ihf ihg => rw [mean]; exact .switch _ ihf ihg
  | «while» b f ih => rw [mean]; exact .switch _ ih .self
  | stitch b f g ihf ihg =>
    rw [mean]
    have hstruct : ∀ B : Behaviour Bool, Distributes m (Behaviour.struct B : Behaviour α → Behaviour α) :=
      fun B S T _ _ => Behaviour.struct_add B S T
    exact .add (.comp (hstruct _) ihf (hplay f)) (.comp (hstruct _) ihg (hplay g))
  | segment n => rw [mean]; exact fun S T _ _ => Behaviour.both_add_right _ _ _ S T
  | opBoth op q => rw [mean]; exact fun S T _ _ => Behaviour.both_add_left _ _ S T _
  | opLeft op q => rw [mean]; exact fun S T _ _ => Behaviour.both_add_left _ _ S T _
  | opRight op q => rw [mean]; exact fun S T _ _ => Behaviour.both_add_right _ _ _ S T
  | opSqueeze op q => rw [mean]; exact fun S T _ _ => Behaviour.squeeze_add S T _
  | ply n => rw [mean]; exact fun S T _ _ => Behaviour.squeeze_add S T _
  | degradeBy x => exact .keep _
  | unDegradeBy x => exact .keep _
  | sometimesBy x f ih => rw [mean]; exact .add (.keep _) (.comp ih (.keep _) (hkeep x))
  | patterned q f ih => rw [mean]; exact .each _ ih

/-- **Transforming a stack is stacking what is transformed.** At every moment, and whatever is asked. -/
theorem transformers_stack (x : Fx Γ α) (ps : List (Pattern Γ α)) (hps : ∀ p ∈ ps, StrictlyRegular p) (m : Γ)
    (a b : Arc) (t : Time) (ha : isIn a t) (hb : isIn b t) :
    act (x.run (stack ps)) m a t = act (stack (ps.map x.run)) m b t := by
  have hstack : Sounds (stack (ps.map id)) fun m => (ps.map fun p => behaviour p m).sum :=
    sounds_stack fun p hp => (hps p hp).sounds
  have hruns : Sounds (stack (ps.map x.run)) fun m => (ps.map fun p => x.mean m (behaviour p m)).sum :=
    sounds_stack fun p hp => x.means.sounds (hps p hp).sounds
  rw [List.map_id] at hstack
  rw [(x.means.sounds hstack).act_eq m ha, hruns.act_eq m hb,
    ((x.distributes m).sum_eq (List.forall_mem_map.mpr fun p hp => ⟨p, hps p hp, rfl⟩)).2, List.map_map]
  rfl

/-- Both layers go back and forth, and one of them lies across the cycles. -/
theorem transformers_stack_palindrome :
    act ((Fx.palindrome : Fx Unit ℕ).run (stack [offbeat, Pattern.pure 1])) () ⟨0, 2⟩ (5 / 4) =
      act (stack ([offbeat, Pattern.pure 1].map (Fx.palindrome : Fx Unit ℕ).run)) () ⟨1, 3 / 2⟩ (5 / 4) := by
  refine transformers_stack .palindrome [offbeat, Pattern.pure 1] (fun p hp => ?_) () ⟨0, 2⟩ ⟨1, 3 / 2⟩ (5 / 4)
    (by norm_num [isIn]) (by norm_num [isIn])
  rcases List.mem_cons.mp hp with rfl | hp
  · exact ⟨wellFormed_rotL _ (wellFormed_pure 0), steady_rotL _ (steady_pure 0)⟩
  · rw [List.mem_singleton.mp hp]
    exact ⟨wellFormed_pure 1, steady_pure 1⟩

end Tidal
