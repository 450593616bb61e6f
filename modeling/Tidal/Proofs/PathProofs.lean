import Tidal.Stream.Process

/-!
# Proofs: paths with placeholders

A path of a message is a template: literal text, and placeholders `{name}` and `{name=default}`.
-/

namespace Tidal

variable {S : Type}

/-! ## Templates -/

/-- A piece of a template. Text may hold a closing brace, since only an opening one starts a
placeholder. -/
inductive PathPiece where
  | literal (text : List Char) (htext : '{' ∉ text)
  | placeholder (name : List Char) (dflt : Option (List Char)) (hname : '=' ∉ name ∧ '{' ∉ name ∧ '}' ∉ name)
      (hdflt : ∀ d ∈ dflt, '}' ∉ d)

namespace PathPiece

/-- What stands between the braces. -/
def word (name : List Char) : Option (List Char) → List Char
  | none => name
  | some d => name ++ '=' :: d

def chars : PathPiece → List Char
  | literal text _ => text
  | placeholder name dflt _ _ => '{' :: word name dflt ++ ['}']

/-- The control of the placeholder, or else its default. -/
def printed (showDouble : ℚ → String) (cm : ValueMap S) : PathPiece → Option (List Char)
  | literal text _ => some text
  | placeholder name dflt _ _ =>
    (cm[String.ofList name]?.map fun v => (simpleShow showDouble v).toList) <|> dflt

/-- A placeholder with no control of its name and no default. -/
def Unknown (cm : ValueMap S) (p : PathPiece) : Prop :=
  ∃ name hname hdflt, p = placeholder name none hname hdflt ∧ cm[String.ofList name]? = none

theorem printed_eq_none {showDouble : ℚ → String} {cm : ValueMap S} {p : PathPiece} :
    p.printed showDouble cm = none ↔ p.Unknown cm := by
  cases p with
  | literal text htext => simp [printed, Unknown]
  | placeholder name dflt hname hdflt =>
    constructor
    · intro h
      cases hlookup : cm[String.ofList name]? with
      | some v => simp [printed, hlookup] at h
      | none =>
        have hnone : dflt = none := by simpa [printed, hlookup] using h
        subst hnone
        exact ⟨name, hname, hdflt, rfl, hlookup⟩
    · rintro ⟨name', hname', hdflt', heq, hlookup⟩
      injection heq with h1 h2
      subst h1 h2
      simp [printed, hlookup]

end PathPiece

/-- A template, written out. -/
def renderPath (ps : List PathPiece) : List Char := ps.flatMap PathPiece.chars

/-! ## The two scanners -/

section Scanners

variable {showDouble : ℚ → String} {cm : ValueMap S}

theorem takeWhile_ne_append {c : Char} {cs : List Char} (h : c ∉ cs) (rest : List Char) :
    (cs ++ c :: rest).takeWhile (· != c) = cs ∧ (cs ++ c :: rest).dropWhile (· != c) = c :: rest := by
  have hne : ∀ x ∈ cs, (x != c) = true := fun x hx => bne_iff_ne.mpr fun heq => h (heq ▸ hx)
  rw [List.takeWhile_append_of_pos hne, List.dropWhile_append_of_pos hne]
  simp

theorem takeWhile_ne_self {c : Char} {cs : List Char} (h : c ∉ cs) :
    cs.takeWhile (· != c) = cs ∧ cs.dropWhile (· != c) = [] := by
  have hne : ∀ x ∈ cs, (x != c) = true := fun x hx => bne_iff_ne.mpr fun heq => h (heq ▸ hx)
  exact ⟨List.takeWhile_eq_self_iff.mpr hne, List.dropWhile_eq_nil_iff.mpr hne⟩

/-- `getString` splits the word of a placeholder where it was put together. -/
theorem getString_word {name : List Char} {dflt : Option (List Char)} (hname : '=' ∉ name) :
    getString showDouble cm (PathPiece.word name dflt) =
      ((cm[String.ofList name]?.map fun v => (simpleShow showDouble v).toList) <|> dflt) := by
  cases dflt with
  | none =>
    obtain ⟨htake, hdrop⟩ := takeWhile_ne_self hname
    simp only [getString, PathPiece.word, htake, hdrop]
  | some d =>
    obtain ⟨htake, hdrop⟩ := takeWhile_ne_append hname d
    simp only [getString, PathPiece.word, htake, hdrop]

/-- Text is copied. -/
theorem parsePath_literal {text : List Char} (h : '{' ∉ text) (rest : List Char) :
    parsePath showDouble cm (text ++ rest) = (parsePath showDouble cm rest).map (text ++ ·) := by
  induction text with
  | nil => simp
  | cons c text ih =>
    have hc : c ≠ '{' := fun heq => h (heq ▸ List.mem_cons_self)
    have ht : '{' ∉ text := fun hmem => h (List.mem_cons_of_mem c hmem)
    rw [List.cons_append, parsePath, ih ht]
    · cases parsePath showDouble cm rest <;> rfl
    · exact hc

/-- A word between braces is looked up, and what follows is read on. -/
theorem parsePath_word {w : List Char} (h : '}' ∉ w) (rest : List Char) :
    parsePath showDouble cm ('{' :: w ++ '}' :: rest) = do
      let v ← getString showDouble cm w
      let xs' ← parsePath showDouble cm rest
      return v ++ xs' := by
  obtain ⟨htake, hdrop⟩ := takeWhile_ne_append h rest
  rw [List.cons_append, parsePath]
  split
  · rename_i hnil
    rw [hdrop] at hnil
    exact absurd hnil (List.cons_ne_nil _ _)
  · rename_i c b hcons
    rw [hdrop] at hcons
    obtain ⟨-, rfl⟩ := List.cons.inj hcons
    simp only [htake]

theorem PathPiece.parsePath_chars (p : PathPiece) (rest : List Char) :
    parsePath showDouble cm (p.chars ++ rest) = do
      let v ← p.printed showDouble cm
      let xs' ← parsePath showDouble cm rest
      return v ++ xs' := by
  cases p with
  | literal text htext =>
    rw [PathPiece.chars, parsePath_literal htext]
    cases parsePath showDouble cm rest <;> rfl
  | placeholder name dflt hname hdflt =>
    have hclose : '}' ∉ PathPiece.word name dflt := by
      cases dflt with
      | none => exact hname.2.2
      | some d =>
        intro hmem
        rcases List.mem_append.mp hmem with hn | hd
        · exact hname.2.2 hn
        · rcases List.mem_cons.mp hd with heq | hd
          · exact absurd heq (by decide)
          · exact hdflt d rfl hd
    rw [PathPiece.chars, List.append_assoc, List.singleton_append, parsePath_word hclose,
      getString_word hname.1]
    rfl

/-- A template is read piece by piece. -/
theorem parsePath_render (ps : List PathPiece) :
    parsePath showDouble cm (renderPath ps) =
      (ps.mapM (PathPiece.printed showDouble cm)).map List.flatten := by
  induction ps with
  | nil => rw [renderPath, List.flatMap_nil, parsePath]; rfl
  | cons p ps ih =>
    rw [renderPath, List.flatMap_cons, p.parsePath_chars]
    rw [renderPath] at ih
    rw [ih, List.mapM_cons]
    cases p.printed showDouble cm with
    | none => rfl
    | some v => cases List.mapM (PathPiece.printed showDouble cm) ps <;> rfl

end Scanners

theorem mapM_eq_none {α β : Type} {f : α → Option β} {l : List α} : l.mapM f = none ↔ ∃ x ∈ l, f x = none := by
  induction l with
  | nil => simp
  | cons x l ih =>
    rw [List.mapM_cons, List.exists_mem_cons_iff, ← ih]
    cases f x with
    | none => simp
    | some y => cases l.mapM f <;> simp

/-- A template becomes its pieces one after the other, each placeholder printed as its control or else its
default, unless a placeholder has neither. -/
theorem substitutePath_render (showDouble : ℚ → String) (cm : ValueMap S) (ps : List PathPiece) :
    substitutePath showDouble (String.ofList (renderPath ps)) cm =
        (ps.mapM (PathPiece.printed showDouble cm)).map (fun vs => String.ofList vs.flatten) ∧
      (substitutePath showDouble (String.ofList (renderPath ps)) cm = none ↔ ∃ p ∈ ps, p.Unknown cm) := by
  have heq : substitutePath showDouble (String.ofList (renderPath ps)) cm =
      (ps.mapM (PathPiece.printed showDouble cm)).map (fun vs => String.ofList vs.flatten) := by
    rw [substitutePath, String.toList_ofList, parsePath_render, Option.map_map]
    rfl
  refine ⟨heq, ?_⟩
  rw [heq, Option.map_eq_none_iff, mapM_eq_none]
  simp only [PathPiece.printed_eq_none]

end Tidal
