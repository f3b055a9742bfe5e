import SarahClient.CNum

/-!
# Reading text with `fgets` and `sscanf`

* `fgetsFrom`, `fgetsAll`: the pieces of a text that calls of `fgets` deliver; **`fgetsAll_lines`**: short lines one by
  one;
* `Directive`, `sscanf`: the values that a format reads, up to the first directive that does not match;
* one lemma per directive, for a text that starts with what the directive reads.
-/

namespace Sarah.Stdio

open List

/-! ## Lines -/

/-- The pieces that `fgets(buffer, size, f)` delivers until the end of the file; `piece` is read already. -/
def fgetsFrom (size : ℕ) : List UInt8 → List UInt8 → List (List UInt8)
  | [], [] => []
  | c :: piece, [] => [c :: piece]
  | piece, c :: text =>
    if c = 10 ∨ piece.length + 2 = size then (piece ++ [c]) :: fgetsFrom size [] text
    else fgetsFrom size (piece ++ [c]) text

/-- The C strings that the calls of `fgets` leave in the buffer. -/
def fgetsAll (size : ℕ) (text : List UInt8) : List (List UInt8) := (fgetsFrom size [] text).map cstr

/-- What fits a buffer as a line with its newline: no byte ends it early. -/
structure Line (size : ℕ) (l : List UInt8) : Prop where
  fits : l.length + 2 ≤ size
  newline : 10 ∉ l
  nul : 0 ∉ l

instance (size : ℕ) (l : List UInt8) : Decidable (Line size l) :=
  decidable_of_iff (l.length + 2 ≤ size ∧ 10 ∉ l ∧ 0 ∉ l) ⟨fun h => ⟨h.1, h.2.1, h.2.2⟩, fun h => ⟨h.1, h.2, h.3⟩⟩

theorem fgetsFrom_line {size : ℕ} {l : List UInt8} (hnew : 10 ∉ l) :
    ∀ piece : List UInt8, (piece ++ l).length + 2 ≤ size → ∀ text : List UInt8,
      fgetsFrom size piece (l ++ 10 :: text) = (piece ++ l ++ [10]) :: fgetsFrom size [] text := by
  induction l with
  | nil =>
    intro piece _ text
    rw [nil_append, append_nil, fgetsFrom, if_pos (Or.inl rfl)]
  | cons c l ih =>
    intro piece hfits text
    rw [mem_cons, not_or] at hnew
    simp only [length_append, length_cons] at hfits
    have hgo : ¬ (c = 10 ∨ piece.length + 2 = size) := by
      rintro (h | h)
      · exact hnew.1 h.symm
      · omega
    have hrec := ih hnew.2 (piece ++ [c])
      (by simp only [length_append, length_cons, length_nil]; omega) text
    rw [cons_append, fgetsFrom, if_neg hgo, hrec, append_assoc piece [c] l, singleton_append]

theorem Line.cstr_newline {size : ℕ} {l : List UInt8} (h : Line size l) : cstr (l ++ [10]) = l ++ [10] :=
  cstr_of_notMem fun hmem => by
    rcases mem_append.mp hmem with hl | h10
    · exact h.nul hl
    · revert h10
      decide

/-- A newline ends a piece, so what follows it is cut by itself. -/
theorem fgetsFrom_append {size : ℕ} (l text : List UInt8) : ∀ piece : List UInt8,
    fgetsFrom size piece (l ++ 10 :: text) = fgetsFrom size piece (l ++ [10]) ++ fgetsFrom size [] text := by
  induction l with
  | nil =>
    intro piece
    rw [nil_append, nil_append, fgetsFrom, if_pos (Or.inl rfl), fgetsFrom, if_pos (Or.inl rfl), fgetsFrom, cons_append,
      nil_append]
  | cons c l ih =>
    intro piece
    rw [cons_append, cons_append, fgetsFrom, fgetsFrom]
    split_ifs
    · rw [ih [], cons_append]
    · exact ih (piece ++ [c])

theorem fgetsAll_flatMap (size : ℕ) (lines : List (List UInt8)) :
    fgetsAll size (lines.flatMap fun l => l ++ [10]) = lines.flatMap fun l => fgetsAll size (l ++ [10]) := by
  induction lines with
  | nil => rfl
  | cons l lines ih =>
    unfold fgetsAll at ih ⊢
    rw [flatMap_cons, append_assoc, singleton_append, fgetsFrom_append, map_append, ih, flatMap_cons]

theorem fgetsAll_line {size : ℕ} {l : List UInt8} (h : Line size l) : fgetsAll size (l ++ [10]) = [l ++ [10]] := by
  unfold fgetsAll
  rw [fgetsFrom_line h.newline [] h.fits [], nil_append, map_cons, h.cstr_newline]
  rfl

/-- **Short lines are delivered one by one**, each with its newline. -/
theorem fgetsAll_lines {size : ℕ} {lines : List (List UInt8)} (h : ∀ l ∈ lines, Line size l) :
    fgetsAll size (lines.flatMap fun l => l ++ [10]) = lines.map fun l => l ++ [10] := by
  rw [fgetsAll_flatMap, flatMap_congr fun l hl => fgetsAll_line (h l hl), ← map_eq_flatMap]

/-! ## Formats -/

/-- A part of a format of `sscanf`; `set` is a conversion `%[..]`, with `assign` off for `%*[..]`. -/
inductive Directive
  | space
  | lit (s : List UInt8)
  | set (p : UInt8 → Bool) (width : Option ℕ) (assign : Bool)
  | str (width : Option ℕ)
  | int

/-- What a conversion stores. -/
inductive Value
  | text (s : List UInt8)
  | int (n : ℤ)
  deriving DecidableEq

/-- The bytes that a conversion takes. -/
def field (p : UInt8 → Bool) (width : Option ℕ) (s : List UInt8) : List UInt8 :=
  match width with
  | none => s.takeWhile p
  | some w => (s.takeWhile p).take w

/-- The text behind a sign. -/
def unsign : List UInt8 → List UInt8
  | 43 :: s => s
  | 45 :: s => s
  | s => s

/-- `%ld` and `%lld`: the number and the text behind it. -/
def scanInt (s : List UInt8) : Option (ℤ × List UInt8) :=
  let digits := unsign (s.dropWhile isspace)
  if digits.takeWhile isdigit = [] then none else some (strtoll s, digits.dropWhile isdigit)

/-- The values that a format assigns, in order. -/
def sscanf : List Directive → List UInt8 → List Value
  | [], _ => []
  | .space :: ds, s => sscanf ds (s.dropWhile isspace)
  | .lit t :: ds, s => if t <+: s then sscanf ds (s.drop t.length) else []
  | .set p width assign :: ds, s =>
    let f := field p width s
    if f = [] then [] else (if assign then [.text f] else []) ++ sscanf ds (s.drop f.length)
  | .str width :: ds, s =>
    let s := s.dropWhile isspace
    let f := field (fun c => !isspace c) width s
    if f = [] then [] else .text f :: sscanf ds (s.drop f.length)
  | .int :: ds, s =>
    match scanInt s with
    | none => []
    | some (n, s) => .int n :: sscanf ds s

/-- The text that the `i`-th assignment stores over `old`. -/
def textAt (values : List Value) (i : ℕ) (old : List UInt8) : List UInt8 :=
  match values[i]? with
  | some (.text s) => s
  | _ => old

/-- The number that the `i`-th assignment stores over `old`. -/
def intAt (values : List Value) (i : ℕ) (old : ℤ) : ℤ :=
  match values[i]? with
  | some (.int n) => n
  | _ => old

/-! ## What a directive reads -/

/-- A text at which a run of `p` ends. -/
def Stops (p : UInt8 → Bool) (s : List UInt8) : Prop := ∀ c ∈ s.head?, p c = false

instance (p : UInt8 → Bool) (s : List UInt8) : Decidable (Stops p s) := Option.decidableForallMem s.head?

section Directives

variable {p : UInt8 → Bool} {f s w : List UInt8}

theorem Stops.nil : Stops p [] := fun _ h => by cases h

theorem Stops.cons {c : UInt8} (h : p c = false) : Stops p (c :: s) := fun _ hc => Option.some.inj hc ▸ h

theorem Stops.append (h : Stops p f) (hf : f ≠ []) : Stops p (f ++ s) := by
  cases f with
  | nil => exact absurd rfl hf
  | cons c f => exact .cons (h c rfl)

theorem Stops.of_forall (h : ∀ c ∈ f, p c = false) : Stops p f := fun _ hc => h _ (mem_of_mem_head? hc)

theorem stops_dropWhile (p : UInt8 → Bool) (s : List UInt8) : Stops p (s.dropWhile p) := by
  intro c hc
  have hhead := head?_dropWhile_not p s
  rw [Option.mem_def.mp hc] at hhead
  exact hhead

theorem takeWhile_of_stops (h : Stops p s) : s.takeWhile p = [] := by
  cases s with
  | nil => rfl
  | cons c s => rw [takeWhile_cons_of_neg (by rw [h c rfl]; decide)]

theorem dropWhile_of_stops (h : Stops p s) : s.dropWhile p = s := by
  cases s with
  | nil => rfl
  | cons c s => rw [dropWhile_cons_of_neg (by rw [h c rfl]; decide)]

theorem takeWhile_run (hf : ∀ c ∈ f, p c) (hs : Stops p s) : (f ++ s).takeWhile p = f := by
  rw [takeWhile_append_of_pos hf, takeWhile_of_stops hs, append_nil]

theorem dropWhile_run (hf : ∀ c ∈ f, p c) (hs : Stops p s) : (f ++ s).dropWhile p = s := by
  rw [dropWhile_append_of_pos hf, dropWhile_of_stops hs]

/-- A width that a run fits. -/
def Within (width : Option ℕ) (f : List UInt8) : Prop := ∀ n ∈ width, f.length ≤ n

theorem within_none : Within none f := fun _ h => by cases h

theorem within_some {n : ℕ} (h : f.length ≤ n) : Within (some n) f := fun _ hn => Option.some.inj hn ▸ h

theorem field_run {width : Option ℕ} (hf : ∀ c ∈ f, p c) (hs : Stops p s) (hw : Within width f) :
    field p width (f ++ s) = f := by
  cases width with
  | none => exact takeWhile_run hf hs
  | some n =>
    rw [field, takeWhile_run hf hs]
    exact take_of_length_le (hw n rfl)

theorem sscanf_space (ds : List Directive) (hw : ∀ c ∈ w, isspace c) (hs : Stops isspace s) :
    sscanf (.space :: ds) (w ++ s) = sscanf ds s := by
  rw [sscanf, dropWhile_run hw hs]

theorem sscanf_lit (ds : List Directive) (t : List UInt8) : sscanf (.lit t :: ds) (t ++ s) = sscanf ds s := by
  rw [sscanf, if_pos (prefix_append t s), drop_left]

theorem sscanf_set (ds : List Directive) {width : Option ℕ} (assign : Bool) (hne : f ≠ []) (hf : ∀ c ∈ f, p c)
    (hs : Stops p s) (hw : Within width f) :
    sscanf (.set p width assign :: ds) (f ++ s) = (if assign then [.text f] else []) ++ sscanf ds s := by
  simp only [sscanf]
  rw [field_run hf hs hw, if_neg hne, drop_left]

theorem sscanf_set_of_stops (ds : List Directive) (width : Option ℕ) (assign : Bool) (hs : Stops p s) :
    sscanf (.set p width assign :: ds) s = [] := by
  have hnil : field p width s = [] := by
    cases width with
    | none => exact takeWhile_of_stops hs
    | some n => rw [field, takeWhile_of_stops hs, take_nil]
  simp only [sscanf]
  rw [if_pos hnil]

theorem sscanf_set_take (ds : List Directive) {n : ℕ} (hf : ∀ c ∈ f, p c) (hn : n + 1 ≤ f.length) (hs : Stops p s) :
    sscanf (.set p (some (n + 1)) true :: ds) (f ++ s) = .text (f.take (n + 1)) :: sscanf ds (f.drop (n + 1) ++ s) := by
  have hfield : field p (some (n + 1)) (f ++ s) = f.take (n + 1) := by rw [field, takeWhile_run hf hs]
  have hne : f.take (n + 1) ≠ [] := by
    rw [← length_pos_iff, length_take_of_le hn]
    exact Nat.succ_pos n
  simp only [sscanf]
  rw [hfield, if_neg hne, length_take_of_le hn, drop_append_of_le_length hn, if_true, singleton_append]

theorem sscanf_str (ds : List Directive) {width : Option ℕ} (hne : f ≠ []) (hf : ∀ c ∈ f, isspace c = false)
    (hs : Stops (fun c => !isspace c) s) (hw : Within width f) :
    sscanf (.str width :: ds) (f ++ s) = .text f :: sscanf ds s := by
  have hstop : Stops isspace (f ++ s) := (Stops.of_forall hf).append hne
  have hrun : ∀ c ∈ f, (fun c => !isspace c) c := fun c hc => by simp only [hf c hc, Bool.not_false]
  simp only [sscanf]
  rw [dropWhile_of_stops hstop, field_run hrun hs hw, if_neg hne, drop_left]

theorem sscanf_str_take (ds : List Directive) {n : ℕ} (hf : ∀ c ∈ f, isspace c = false) (hn : n + 1 ≤ f.length)
    (hs : Stops (fun c => !isspace c) s) :
    sscanf (.str (some (n + 1)) :: ds) (f ++ s) = .text (f.take (n + 1)) :: sscanf ds (f.drop (n + 1) ++ s) := by
  have hne : f ≠ [] := by
    rintro rfl
    exact absurd hn (by simp)
  have hstop : Stops isspace (f ++ s) := (Stops.of_forall hf).append hne
  have hrun : ∀ c ∈ f, (fun c => !isspace c) c := fun c hc => by simp only [hf c hc, Bool.not_false]
  have hfield : field (fun c => !isspace c) (some (n + 1)) (f ++ s) = f.take (n + 1) := by
    rw [field, takeWhile_run hrun hs]
  have htake : f.take (n + 1) ≠ [] := by
    rw [Ne, take_eq_nil_iff]
    rintro (h | h)
    · cases h
    · exact hne h
  simp only [sscanf]
  rw [dropWhile_of_stops hstop, hfield, if_neg htake, length_take_of_le hn, drop_append_of_le_length hn]

theorem sscanf_space_of_stops (ds : List Directive) (hs : Stops isspace s) :
    sscanf (.space :: ds) s = sscanf ds s := by
  rw [sscanf, dropWhile_of_stops hs]

theorem sscanf_blank (ds : List Directive) (width : Option ℕ) (hw : ∀ c ∈ w, isspace c = true) :
    sscanf (.space :: .str width :: ds) w = [] := by
  have hnil : w.dropWhile isspace = [] := dropWhile_eq_nil_iff.mpr hw
  simp only [sscanf]
  rw [hnil]
  cases width with
  | none => rfl
  | some n => exact if_pos take_nil

theorem sscanf_str_cons (ds : List Directive) {c : UInt8} (hc : isspace c = false) (n : ℕ) (s : List UInt8) :
    ∃ f values, sscanf (.str (some (n + 1)) :: ds) (c :: s) = .text (c :: f) :: values := by
  have hdrop : (c :: s).dropWhile isspace = c :: s := dropWhile_cons_of_neg (by rw [hc]; decide)
  have hfield : field (fun c => !isspace c) (some (n + 1))
    (c :: s) = c :: (s.takeWhile fun c => !isspace c).take n := by
    rw [field, takeWhile_cons_of_pos (by rw [hc]; rfl), take_succ_cons]
  simp only [sscanf]
  rw [hdrop, hfield, if_neg (cons_ne_nil _ _)]
  exact ⟨_, _, rfl⟩

theorem not_isdigit_of_isspace {c : UInt8} (h : isspace c = true) : isdigit c = false := by
  simp only [isspace, isdigit, decide_eq_true_eq, decide_eq_false_iff_not] at h ⊢
  rcases h with rfl | h
  · decide
  · omega

theorem stops_not_decimal (n : ℕ) : Stops (fun c => !isdigit c) (decimal n ++ s) := by
  refine Stops.append (.of_forall fun c hc => ?_) (decimal_ne_nil n)
  simp only [isdigit_of_mem_decimal n c hc, Bool.not_true]

theorem Stops.append_newline (h : Stops isdigit s) : Stops isdigit (s ++ [10]) := by
  cases s with
  | nil => exact .cons rfl
  | cons c s => exact h.append (cons_ne_nil c s)

theorem stops_decimal (n : ℕ) : Stops isspace (decimal n ++ s) := by
  obtain ⟨c, t, hct, hspace, -⟩ := decimal_eq_cons n
  rw [hct]
  exact .cons hspace

theorem scanInt_decimal {n : ℕ} (hn : n < 2 ^ 63) (hs : Stops isdigit s) :
    scanInt (decimal n ++ s) = some ((n : ℤ), s) := by
  obtain ⟨c, t, hct, -, hminus, hplus⟩ := decimal_eq_cons n
  have hdrop : (decimal n ++ s).dropWhile isspace = decimal n ++ s := dropWhile_of_stops (stops_decimal n)
  have hdigits := takeWhile_run (isdigit_of_mem_decimal n) hs
  have hunsign : unsign (decimal n ++ s) = decimal n ++ s := by
    rw [hct, cons_append]
    unfold unsign
    split
    · rename_i heq
      exact absurd (cons.inj heq).1 hplus
    · rename_i heq
      exact absurd (cons.inj heq).1 hminus
    · rfl
  have hvalue : strtoll (decimal n ++ s) = n := by
    have hvalue : digitsValue ((c :: (t ++ s)).takeWhile isdigit) = n := by
      rw [← cons_append, ← hct, hdigits, digitsValue_decimal]
    unfold strtoll
    rw [hdrop, hct, cons_append]
    split
    · rename_i heq
      exact absurd (cons.inj heq).1 hminus
    · rename_i heq
      exact absurd (cons.inj heq).1 hplus
    · dsimp only
      rw [hvalue]
      omega
  unfold scanInt
  simp only [hdrop, hunsign]
  rw [hdigits, if_neg (decimal_ne_nil n), dropWhile_run (isdigit_of_mem_decimal n) hs, hvalue]

theorem sscanf_int (ds : List Directive) {n : ℕ} (hn : n < 2 ^ 63) (hs : Stops isdigit s) :
    sscanf (.int :: ds) (decimal n ++ s) = .int n :: sscanf ds s := by
  rw [sscanf, scanInt_decimal hn hs]

end Directives

end Sarah.Stdio
