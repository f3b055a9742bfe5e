import SarahClient.CJson.Accepted

/-!
# Printing into a growing buffer, `cJSON.c`

`mem k` is the outcome of the `k`-th call of `malloc` or `realloc`: none, or the bytes that are found in the new memory.

* `PrintBuffer`, `ensure`, `put`: the buffer, its growth, and writing at the offset; `updateOffset`: the `strlen` behind
  what was written;
* `printStringPtr`, `printList`, `printValue`, `cJSONPrint`;
* `At`, `Done`: the buffer holds what was printed so far, up to the offset or with its NUL behind it;
* `Writes`: a function stays inside the buffer and adds a text to it, and fails only for lack of memory or of a text;
* **`cJSONPrint_spec`**: the result is the text of the tree.
-/

namespace Sarah.JsonText

open Stdio

/-- `printbuffer`; its length is that of the bytes. -/
structure PrintBuffer where
  buffer : List UInt8
  offset : ℕ
  depth : ℕ
  calls : ℕ

/-- What a printing function does; `fault` is a read or a write outside the buffer. -/
inductive Printed
  | fault
  | fail
  | ok (p : PrintBuffer)

/-- What follows runs only where printing has gone well so far. -/
def Printed.bind : Printed → (PrintBuffer → Printed) → Printed
  | .fault, _ => .fault
  | .fail, _ => .fail
  | .ok p, f => f p

theorem Printed.bind_assoc (r : Printed) (f g : PrintBuffer → Printed) :
    (r.bind f).bind g = r.bind fun p => (f p).bind g := by
  cases r <;> rfl

/-- `INT_MAX`. -/
def intMax : ℕ := 2 ^ 31 - 1

/-- Write bytes at a position. -/
def store (buffer : List UInt8) (i : ℕ) (bytes : List UInt8) : Option (List UInt8) :=
  if i + bytes.length ≤ buffer.length then some (buffer.take i ++ bytes ++ buffer.drop (i + bytes.length)) else none

/-- `update_offset`. -/
def updateOffset (p : PrintBuffer) : Printed :=
  match (p.buffer.drop p.offset).idxOf? 0 with
  | none => .fault
  | some n => .ok { p with offset := p.offset + n }

section Print

variable (mem : ℕ → Option (ℕ → UInt8)) (format : Bool)

/-- `realloc(p->buffer, newsize)`. -/
def reallocate (p : PrintBuffer) (newsize : ℕ) : Printed :=
  match mem p.calls with
  | none => .fail
  | some fresh =>
    .ok { p with
      buffer := p.buffer.take newsize ++ (List.range (newsize - p.buffer.length)).map fresh
      calls := p.calls + 1 }

/-- `ensure` on a buffer that may be reallocated. -/
def ensure (p : PrintBuffer) (needed : ℕ) : Printed :=
  if 0 < p.buffer.length ∧ p.buffer.length ≤ p.offset then .fail
  else if intMax < needed then .fail
  else
    let needed := needed + (p.offset + 1)
    if needed ≤ p.buffer.length then .ok p
    else if intMax / 2 < needed then if needed ≤ intMax then reallocate mem p intMax else .fail
    else reallocate mem p (needed * 2)

/-- `ensure`, the bytes that are written behind the offset, and how far it moves. -/
def put (p : PrintBuffer) (needed : ℕ) (bytes : List UInt8) (advance : ℕ) : Printed :=
  (ensure mem p needed).bind fun p =>
    match store p.buffer p.offset bytes with
    | none => .fault
    | some buffer => .ok { p with buffer := buffer, offset := p.offset + advance }

/-- The additional characters for a byte of a string. -/
def escapeCharacters (c : UInt8) : ℕ :=
  match c with
  | 34 | 92 | 8 | 12 | 10 | 13 | 9 => 1
  | c => if c.toNat < 32 then 5 else 0

/-- What is written for a byte of a string, where `sprintf` adds a NUL, and how far the pointer moves. -/
def escapeBytes (c : UInt8) : List UInt8 × ℕ :=
  if 31 < c.toNat ∧ c ≠ 34 ∧ c ≠ 92 then ([c], 1)
  else
    match c with
    | 92 => ([92, 92], 2)
    | 34 => ([92, 34], 2)
    | 8 => ([92, 98], 2)
    | 12 => ([92, 102], 2)
    | 10 => ([92, 110], 2)
    | 13 => ([92, 114], 2)
    | 9 => ([92, 116], 2)
    | c => (92 :: 117 :: (hex4 c.toNat ++ [0]), 6)

/-- The loop that copies a string with escapes. -/
def escapeLoop : List UInt8 → ℕ → List UInt8 → Option (List UInt8)
  | [], _, buffer => some buffer
  | c :: s, pointer, buffer =>
    (store buffer pointer (escapeBytes c).1).bind fun buffer => escapeLoop s (pointer + (escapeBytes c).2) buffer

/-- `print_string_ptr`. -/
def printStringPtr (input : Option (List UInt8)) (p : PrintBuffer) : Printed :=
  match input with
  | none => put mem p 3 [34, 34, 0] 0
  | some s =>
    let s := cstr s
    let escapes := (s.map escapeCharacters).sum
    let outputLength := s.length + escapes
    if escapes = 0 then put mem p (outputLength + 3) (34 :: (s ++ [34, 0])) 0
    else
      (ensure mem p (outputLength + 3)).bind fun p =>
        match (store p.buffer p.offset [34]).bind fun buffer => (escapeLoop s (p.offset + 1) buffer).bind fun buffer =>
            store buffer (p.offset + outputLength + 1) [34, 0] with
        | none => .fault
        | some buffer => .ok { p with buffer := buffer }

/-- `print_array`, with its loop. -/
def printArray (loop : PrintBuffer → Printed) (p : PrintBuffer) : Printed :=
  (put mem p 1 [91] 1).bind fun p => (loop { p with depth := p.depth + 1 }).bind fun p =>
    (put mem p 2 [93, 0] 0).bind fun p => .ok { p with depth := p.depth - 1 }

/-- `print_object`, with its loop. -/
def printObject (loop : PrintBuffer → Printed) (p : PrintBuffer) : Printed :=
  let length := if format then 2 else 1
  (put mem p (length + 1) (123 :: if format then [10] else []) length).bind fun p =>
    (loop { p with depth := p.depth + 1 }).bind fun p =>
      (put mem p (if format then p.depth + 1 else 2)
        ((if format then List.replicate (p.depth - 1) 9 else []) ++ [125, 0]) 0).bind fun p =>
          .ok { p with depth := p.depth - 1 }

/-- `print_value`, with the loop over the items inside. -/
def printValue (item : JsonItem) (inside : Bool → PrintBuffer → Printed) (p : PrintBuffer) : Printed :=
  match item.type with
  | .null => put mem p 5 (lit "null" ++ [0]) 0
  | .false => put mem p 6 (lit "false" ++ [0]) 0
  | .true => put mem p 5 (lit "true" ++ [0]) 0
  | .number =>
    match printNumber item.valuedouble with
    | none => .fail
    | some number => put mem p (number.length + 1) (number ++ [0]) number.length
  | .raw =>
    match item.valuestring with
    | none => .fail
    | some s => put mem p ((cstr s).length + 1) (cstr s ++ [0]) 0
  | .string => printStringPtr mem item.valuestring p
  | .array => printArray mem (inside false) p
  | .object => printObject mem format (inside true) p
  | .invalid => .fail

/-- Whether `next` of an item is `NULL`. -/
def isLast : Forest JsonItem → Bool
  | .nil => true
  | _ => false

/-- A round of the loop of `print_array`. -/
def printElement (value : PrintBuffer → Printed) (last : Bool) (p : PrintBuffer) : Printed :=
  (value p).bind fun p => (updateOffset p).bind fun p =>
    let length := if format then 2 else 1
    if last then .ok p else put mem p (length + 1) (44 :: ((if format then [32] else []) ++ [0])) length

/-- A round of the loop of `print_object`. -/
def printMember (item : JsonItem) (value : PrintBuffer → Printed) (last : Bool) (p : PrintBuffer) : Printed :=
  (if format then put mem p p.depth (List.replicate p.depth 9) p.depth else .ok p).bind fun p =>
    (printStringPtr mem item.string p).bind fun p => (updateOffset p).bind fun p =>
      let length := if format then 2 else 1
      (put mem p length (58 :: if format then [9] else []) length).bind fun p =>
        (value p).bind fun p => (updateOffset p).bind fun p =>
          let length := (if format then 1 else 0) + (if last then 0 else 1)
          put mem p (length + 1) ((if last then [] else [44]) ++ ((if format then [10] else []) ++ [0])) length

/-- The loop of `print_array` or of `print_object`. -/
def printList : Forest JsonItem → Bool → PrintBuffer → Printed
  | .nil, _, p => .ok p
  | .cons item kids rest, object, p =>
    let value := printValue mem format item fun object p => printList kids object p
    (if object then printMember mem format item value (isLast rest) p
      else printElement mem format value (isLast rest) p).bind fun p => printList rest object p

/-- `print`: the memory that `cJSON_Print` or `cJSON_PrintUnformatted` returns, or `NULL`; no result is a fault. -/
def cJSONPrint (item : JsonItem) (kids : Forest JsonItem) : Option (Option (List UInt8)) :=
  match mem 0 with
  | none => some none
  | some fresh =>
    match ((printValue mem format item (fun object p => printList mem format kids object p)
        ⟨(List.range 256).map fresh, 0, 0, 1⟩).bind updateOffset).bind fun p => reallocate mem p (p.offset + 1) with
    | .fault => none
    | .fail => some none
    | .ok p => some (some p.buffer)

end Print

/-! ## The buffer -/

/-- The buffer begins with `w`, and the offset stands behind it. -/
structure At (depth : ℕ) (w : List UInt8) (p : PrintBuffer) : Prop where
  written : w <+: p.buffer
  offset : p.offset = w.length
  room : w.length < p.buffer.length
  depth : p.depth = depth

/-- The buffer begins with `w` and a NUL; the offset stands inside `w` or behind it, with no NUL in between. -/
structure Done (depth : ℕ) (w : List UInt8) (p : PrintBuffer) : Prop where
  written : w ++ [0] <+: p.buffer
  offset : p.offset ≤ w.length
  noNul : 0 ∉ w.drop p.offset
  depth : p.depth = depth

theorem At.deeper {d : ℕ} {w : List UInt8} {p : PrintBuffer} (h : At d w p) :
    At (d + 1) w { p with depth := p.depth + 1 } := ⟨h.written, h.offset, h.room, congrArg _ h.depth⟩

theorem Done.back {d : ℕ} {w : List UInt8} {p : PrintBuffer} (h : Done (d + 1) w p) :
    Done d w { p with depth := p.depth - 1 } := ⟨h.written, h.offset, h.noNul, congrArg (· - 1) h.depth⟩

section Buffer

variable {mem : ℕ → Option (ℕ → UInt8)} {d n : ℕ} {w bytes b : List UInt8} {p : PrintBuffer}

theorem idxOf?_append_zero {s : List UInt8} (hs : 0 ∉ s) (t : List UInt8) : (s ++ 0 :: t).idxOf? 0 = some s.length := by
  induction s with
  | nil => rfl
  | cons c s ih =>
    rw [List.mem_cons, not_or] at hs
    rw [List.cons_append, List.idxOf?_cons, if_neg (by simpa using Ne.symm hs.1), ih hs.2]
    rfl

/-- **`update_offset`** moves the offset behind what was written. -/
theorem Done.update (h : Done d w p) : ∃ p', updateOffset p = .ok p' ∧ At d w p' := by
  obtain ⟨rest, hrest⟩ := h.written
  have hdrop : p.buffer.drop p.offset = w.drop p.offset ++ 0 :: rest := by
    rw [← hrest, List.append_assoc, List.drop_append_of_le_length h.offset]
    rfl
  have hidx : (p.buffer.drop p.offset).idxOf? 0 = some (w.length - p.offset) := by
    rw [hdrop, idxOf?_append_zero h.noNul, List.length_drop]
  refine ⟨{ p with offset := w.length }, ?_, ⟨(List.prefix_append w [0]).trans h.written, rfl, ?_, h.depth⟩⟩
  · rw [updateOffset, hidx]
    dsimp only
    rw [Nat.add_sub_cancel' h.offset]
  · have hle := h.written.length_le
    rw [List.length_append, List.length_singleton] at hle
    exact hle

theorem store_behind (bytes : List UInt8) (h : w <+: b) (hle : w.length + bytes.length ≤ b.length) :
    ∃ b', store b w.length bytes = some b' ∧ w ++ bytes <+: b' ∧ b'.length = b.length := by
  obtain ⟨rest, rfl⟩ := h
  refine ⟨_, if_pos hle, ?_, ?_⟩
  · rw [List.take_left]
    exact List.prefix_append _ _
  · rw [List.length_append] at hle
    simp only [List.length_append, List.length_take, List.length_drop]
    omega

/-- There is memory, and the text of `n` characters is not too long. -/
def Enough (mem : ℕ → Option (ℕ → UInt8)) (n : ℕ) : Prop := (∀ k, mem k ≠ none) ∧ n + 2 ≤ intMax

theorem reallocate_spec (mem : ℕ → Option (ℕ → UInt8)) (h : At d w p) (size : ℕ) (hsize : w.length < size) :
    (∃ p', reallocate mem p size = .ok p' ∧ At d w p' ∧ p'.buffer.length = size) ∨
      (reallocate mem p size = .fail ∧ ∃ k, mem k = none) := by
  unfold reallocate
  cases hmem : mem p.calls with
  | none => exact .inr ⟨rfl, _, hmem⟩
  | some fresh =>
    have hlen : (p.buffer.take size ++ (List.range (size - p.buffer.length)).map fresh).length = size := by
      simp only [List.length_append, List.length_take, List.length_map, List.length_range]
      omega
    refine .inl ⟨_, rfl, ⟨?_, h.offset, by rwa [hlen], h.depth⟩, hlen⟩
    exact (List.prefix_take_iff.mpr ⟨h.written, hsize.le⟩).trans (List.prefix_append _ _)

/-- **`ensure`**: room for `needed` bytes and a NUL, unless memory is missing or the text is too long. -/
theorem ensure_spec (mem : ℕ → Option (ℕ → UInt8)) (n : ℕ) (h : At d w p) (needed : ℕ) :
    (∃ p', ensure mem p needed = .ok p' ∧ At d w p' ∧ w.length + needed + 1 ≤ p'.buffer.length) ∨
      (ensure mem p needed = .fail ∧ ¬ (Enough mem n ∧ w.length + needed ≤ n + 1)) := by
  have hoff := h.offset
  have hroom := h.room
  unfold ensure
  rw [if_neg (by omega)]
  by_cases hmax : intMax < needed
  · rw [if_pos hmax]
    exact .inr ⟨rfl, fun hn => by have := hn.1.2; omega⟩
  rw [if_neg hmax]
  dsimp only
  by_cases hfits : needed + (p.offset + 1) ≤ p.buffer.length
  · rw [if_pos hfits]
    exact .inl ⟨p, rfl, h, by omega⟩
  rw [if_neg hfits]
  have hgrow : ∀ size, needed + (p.offset + 1) ≤ size →
      (∃ p', reallocate mem p size = .ok p' ∧ At d w p' ∧ w.length + needed + 1 ≤ p'.buffer.length) ∨
        (reallocate mem p size = .fail ∧ ¬ (Enough mem n ∧ w.length + needed ≤ n + 1)) := by
    intro size hsize
    rcases reallocate_spec mem h size (by omega) with ⟨p', hp', hat, hlen⟩ | ⟨hfail, k, hk⟩
    · exact .inl ⟨p', hp', hat, by omega⟩
    · exact .inr ⟨hfail, fun hn => hn.1.1 k hk⟩
  split_ifs with hhalf hwhole
  · exact hgrow _ hwhole
  · exact .inr ⟨rfl, fun hn => by have := hn.1.2; omega⟩
  · exact hgrow _ (by omega)

end Buffer

/-! ## What a function writes -/

/-- One text and then another. -/
def join (t s : Option (List UInt8)) : Option (List UInt8) := t.bind fun u => s.map (u ++ ·)

/-- A function that finds `w` in the buffer adds the text `t`. It fails only if memory is missing, or if the text is
missing or makes more than `n` characters. -/
def Writes (mem : ℕ → Option (ℕ → UInt8)) (n : ℕ) (Q : List UInt8 → PrintBuffer → Prop) (w : List UInt8)
    (t : Option (List UInt8)) : Printed → Prop
  | .fault => False
  | .fail => ¬ (Enough mem n ∧ ∃ u, t = some u ∧ (w ++ u).length ≤ n)
  | .ok p => ∃ u, t = some u ∧ Q (w ++ u) p

section Writes

variable {mem : ℕ → Option (ℕ → UInt8)} {d d' n : ℕ} {Q R : List UInt8 → PrintBuffer → Prop} {w bytes : List UInt8}
  {t s : Option (List UInt8)} {p : PrintBuffer} {r : Printed}

theorem Writes.bind {f : PrintBuffer → Printed} (h : Writes mem n Q w t r)
    (hf : ∀ u p, t = some u → Q (w ++ u) p → Writes mem n R (w ++ u) s (f p)) :
    Writes mem n R w (join t s) (r.bind f) := by
  cases r with
  | fault => exact h
  | fail =>
    rintro ⟨hmem, v, hv, hlen⟩
    obtain ⟨u, hu, hv⟩ := Option.bind_eq_some_iff.mp hv
    obtain ⟨u', -, rfl⟩ := Option.map_eq_some_iff.mp hv
    refine h ⟨hmem, u, hu, ?_⟩
    rw [List.length_append] at hlen ⊢
    rw [List.length_append] at hlen
    omega
  | ok p =>
    obtain ⟨u, rfl, hQ⟩ := h
    have hnext := hf u p rfl hQ
    rw [Printed.bind]
    cases hr : f p with
    | fault =>
      rw [hr] at hnext
      exact hnext
    | fail =>
      rw [hr] at hnext
      rintro ⟨hmem, v, hv, hlen⟩
      obtain ⟨u', hu', rfl⟩ := Option.map_eq_some_iff.mp hv
      exact hnext ⟨hmem, u', hu', by rwa [List.append_assoc]⟩
    | ok p' =>
      rw [hr] at hnext
      obtain ⟨u', rfl, hR⟩ := hnext
      exact ⟨u ++ u', rfl, by rwa [← List.append_assoc]⟩

theorem Writes.ok (h : Q w p) : Writes mem n Q w (some []) (.ok p) := ⟨[], rfl, by rwa [List.append_nil]⟩

theorem join_nil (t : Option (List UInt8)) : join t (some []) = t := by
  cases t with
  | none => rfl
  | some u => exact congrArg some (List.append_nil u)

theorem Writes.then {f : PrintBuffer → Printed} (h : Writes mem n Q w t r)
    (hf : ∀ w p, Q w p → ∃ p', f p = .ok p' ∧ R w p') :
    Writes mem n R w t (r.bind f) := by
  rw [← join_nil t]
  refine h.bind fun u p _ hQ => ?_
  obtain ⟨p', hp', hR⟩ := hf _ p hQ
  rw [hp']
  exact .ok hR

theorem Writes.update (h : Writes mem n (Done d) w t r) : Writes mem n (At d) w t (r.bind updateOffset) :=
  h.then fun _ _ hdone => hdone.update

theorem put_at (mem : ℕ → Option (ℕ → UInt8)) (n : ℕ) (bytes tail : List UInt8) (needed : ℕ) (h : At d w p)
    (hwrite : (bytes ++ tail).length ≤ needed)
    (hneed : needed ≤ bytes.length + 1) :
    Writes mem n (At d) w (some bytes) (put mem p needed (bytes ++ tail) bytes.length) := by
  unfold put
  rcases ensure_spec mem n h needed with ⟨p', hp', hat, hlen⟩ | ⟨hfail, hn⟩
  · obtain ⟨b, hb, hpre, hblen⟩ := store_behind (bytes ++ tail) hat.written (by omega)
    rw [hp', Printed.bind, hat.offset, hb]
    refine ⟨bytes, rfl, ?_, ?_, ?_, hat.depth⟩
    · rw [← List.append_assoc] at hpre
      exact (List.prefix_append _ tail).trans hpre
    · rw [List.length_append]
    · rw [List.length_append] at hwrite ⊢
      dsimp only
      omega
  · rw [hfail]
    rintro ⟨hmem, u, hu, hle⟩
    obtain rfl := Option.some.inj hu
    rw [List.length_append] at hle
    exact hn ⟨hmem, by omega⟩

theorem put_done (mem : ℕ → Option (ℕ → UInt8)) (n : ℕ) (bytes : List UInt8) (advance : ℕ) (h : At d w p)
    (hzero : 0 ∉ bytes) (hadv : advance ≤ bytes.length) :
    Writes mem n (Done d) w (some bytes) (put mem p (bytes.length + 1) (bytes ++ [0]) advance) := by
  unfold put
  rcases ensure_spec mem n h (bytes.length + 1) with ⟨p', hp', hat, hlen⟩ | ⟨hfail, hn⟩
  · obtain ⟨b, hb, hpre, hblen⟩ := store_behind (bytes ++ [0]) hat.written
      (by rw [List.length_append, List.length_singleton]; omega)
    rw [hp', Printed.bind, hat.offset, hb]
    refine ⟨bytes, rfl, ?_, ?_, ?_, hat.depth⟩
    · rwa [List.append_assoc]
    · rw [List.length_append]
      dsimp only
      omega
    · dsimp only
      rw [← List.drop_drop, List.drop_left]
      exact fun hmem => hzero (List.mem_of_mem_drop hmem)
  · rw [hfail]
    rintro ⟨hmem, u, hu, hle⟩
    obtain rfl := Option.some.inj hu
    rw [List.length_append] at hle
    exact hn ⟨hmem, by omega⟩

/-! ## Strings -/

theorem escapeBytes_spec (c : UInt8) : ∃ z : List UInt8, z.length ≤ 1 ∧ (escapeBytes c).1 = escapeChar c ++ z ∧
    (escapeBytes c).2 = (escapeChar c).length ∧ (escapeChar c).length = escapeCharacters c + 1 := by
  have hall : ∀ n < 256, ((escapeBytes (UInt8.ofNat n)).1.drop (escapeChar (UInt8.ofNat n)).length).length ≤ 1 ∧
      (escapeBytes (UInt8.ofNat n)).1 = escapeChar (UInt8.ofNat n) ++
        (escapeBytes (UInt8.ofNat n)).1.drop (escapeChar (UInt8.ofNat n)).length ∧
      (escapeBytes (UInt8.ofNat n)).2 = (escapeChar (UInt8.ofNat n)).length ∧
      (escapeChar (UInt8.ofNat n)).length = escapeCharacters (UInt8.ofNat n) + 1 := by decide +kernel
  have hc := hall c.toNat c.toNat_lt
  rw [UInt8.ofNat_toNat] at hc
  exact ⟨_, hc⟩

theorem length_escaped (s : List UInt8) :
    (s.flatMap escapeChar).length = s.length + (s.map escapeCharacters).sum := by
  induction s with
  | nil => rfl
  | cons c s ih =>
    obtain ⟨-, -, -, -, hlen⟩ := escapeBytes_spec c
    rw [List.flatMap_cons, List.length_append, List.length_cons, List.map_cons, List.sum_cons, ih, hlen]
    omega

theorem escaped_of_sum_eq_zero {s : List UInt8} (h : (s.map escapeCharacters).sum = 0) : s.flatMap escapeChar = s := by
  induction s with
  | nil => rfl
  | cons c s ih =>
    rw [List.map_cons, List.sum_cons, Nat.add_eq_zero_iff] at h
    obtain ⟨-, -, -, -, hlen⟩ := escapeBytes_spec c
    have hplain : escapeChar c = [c] := by
      rcases escapeChar_cases c with ⟨heq, -, -⟩ | ⟨e, heq, -, -⟩ | ⟨-, heq⟩
      · exact heq
      all_goals
        rw [heq, h.1] at hlen
        simp only [List.length_cons] at hlen
        omega
    rw [List.flatMap_cons, hplain, ih h.2]
    rfl

/-- The loop writes behind the quote, and leaves room for the other one and the NUL. -/
theorem escapeLoop_spec (s : List UInt8) {b : List UInt8} (h : w <+: b)
    (hle : w.length + (s.flatMap escapeChar).length + 1 ≤ b.length) :
    ∃ b', escapeLoop s w.length b = some b' ∧ w ++ s.flatMap escapeChar <+: b' ∧ b'.length = b.length := by
  induction s generalizing w b with
  | nil => exact ⟨b, rfl, by rwa [List.flatMap_nil, List.append_nil], rfl⟩
  | cons c s ih =>
    obtain ⟨z, hz, hbytes, hadv, -⟩ := escapeBytes_spec c
    rw [List.flatMap_cons, List.length_append] at hle
    obtain ⟨b₁, hb₁, hpre, hlen⟩ := store_behind (escapeChar c ++ z) h (by rw [List.length_append]; omega)
    rw [← List.append_assoc] at hpre
    obtain ⟨b₂, hb₂, hpre₂, hlen₂⟩ := ih ((List.prefix_append (w ++ escapeChar c) z).trans hpre)
      (by rw [List.length_append]; omega)
    refine ⟨b₂, ?_, ?_, hlen₂.trans hlen⟩
    · rw [escapeLoop, hbytes, hb₁, Option.bind_some, hadv, ← List.length_append, hb₂]
    · rwa [List.flatMap_cons, ← List.append_assoc]

/-- **`print_string_ptr`** writes the string in quotes. -/
theorem printStringPtr_writes (h : At d w p) (input : Option (List UInt8)) :
    Writes mem n (Done d) w (some (stringText input)) (printStringPtr mem input p) := by
  have hzero := zero_notMem_stringText input
  cases input with
  | none => exact put_done mem n [34, 34] 0 h (by decide) (Nat.zero_le _)
  | some s =>
    rw [stringText, Option.getD_some] at hzero ⊢
    unfold printStringPtr
    dsimp only
    generalize cstr s = s at hzero
    have hlen := length_escaped s
    split_ifs with hnone
    · rw [escaped_of_sum_eq_zero hnone] at hzero hlen ⊢
      have hput := put_done mem n _ 0 h hzero (Nat.zero_le _)
      have hneed : s.length + (s.map escapeCharacters).sum + 3 = (34 :: (s ++ [34])).length + 1 := by
        rw [hnone, List.length_cons, List.length_append, List.length_singleton]
      rw [hneed, show 34 :: (s ++ [34, 0]) = 34 :: (s ++ [34]) ++ [0] by simp]
      exact hput
    · rw [← hlen]
      generalize hescaped : s.flatMap escapeChar = escaped at *
      rcases ensure_spec mem n h (escaped.length + 3) with ⟨p', hp', hat, hroom⟩ | ⟨hfail, hn⟩
      · obtain ⟨b₁, hb₁, hpre₁, hlen₁⟩ := store_behind [34] hat.written (by rw [List.length_singleton]; omega)
        obtain ⟨b₂, hb₂, hpre₂, hlen₂⟩ := escapeLoop_spec s hpre₁
          (by rw [List.length_append, List.length_singleton, hescaped]; omega)
        rw [hescaped] at hpre₂
        obtain ⟨b₃, hb₃, hpre₃, hlen₃⟩ := store_behind [34, 0] hpre₂
          (by simp only [List.length_append, List.length_cons, List.length_nil]; omega)
        rw [List.length_append, List.length_singleton] at hb₂
        rw [List.length_append, List.length_append, List.length_singleton, Nat.add_right_comm] at hb₃
        rw [hp', Printed.bind, hat.offset, hb₁, Option.bind_some, hb₂, Option.bind_some, hb₃]
        refine ⟨_, rfl, ?_, ?_, ?_, hat.depth⟩
        · have heq : w ++ 34 :: (escaped ++ [34]) ++ [0] = w ++ [34] ++ escaped ++ [34, 0] := by simp
          rwa [heq]
        · rw [List.length_append]
          exact Nat.le_add_right _ _
        · dsimp only
          rwa [List.drop_left]
      · rw [hfail]
        rintro ⟨hmem, u, hu, hle⟩
        obtain rfl := Option.some.inj hu
        simp only [List.length_append, List.length_cons, List.length_nil] at hle
        exact hn ⟨hmem, by omega⟩

/-! ## Trees -/

theorem Writes.congr (h : Writes mem n Q w t r) (heq : t = s) : Writes mem n Q w s r := heq ▸ h

theorem zero_notMem_printNumber {v : Option Double} {u : List UInt8} (h : printNumber v = some u) : 0 ∉ u := by
  have hdigits : ∀ (p : ℕ) (q : ℚ), 0 < p → 0 ∉ sprintfG p q := fun p q hp hmem =>
    absurd ((sprintfG_chars hp q).1 0 hmem) (by decide)
  unfold printNumber at h
  dsimp only at h
  split_ifs at h
  obtain rfl := Option.some.inj h
  split
  · split_ifs
    · exact hdigits _ _ (by decide)
    · exact hdigits _ _ (by decide)
  · decide

variable {format : Bool} {inside : Bool → ℕ → Option (List UInt8)} {loop : Bool → PrintBuffer → Printed}

/-- The loops over the items inside write them. -/
def LoopWrites (mem : ℕ → Option (ℕ → UInt8)) (n : ℕ) (inside : Bool → ℕ → Option (List UInt8))
    (loop : Bool → PrintBuffer → Printed) : Prop :=
  ∀ object d w p, At d w p → Writes mem n (At d) w (inside object d) (loop object p)

/-- **`print_array`**, if its loop writes the items. -/
theorem printArray_writes (hloop : LoopWrites mem n inside loop)
    (h : At d w p) : Writes mem n (Done d) w ((inside false (d + 1)).map fun t => 91 :: (t ++ [93]))
      (printArray mem (loop false) p) := by
  have hopen := put_at mem n [91] [] 1 h le_rfl (by decide)
  refine (hopen.bind (s := join (inside false (d + 1)) (some [93])) fun u p _ hat => ?_).congr ?_
  · refine (hloop _ _ _ _ hat.deeper).bind fun u p _ hat => ?_
    exact (put_done mem n [93] 0 hat (by decide) (Nat.zero_le _)).then fun w p hdone => ⟨_, rfl, hdone.back⟩
  · cases inside false (d + 1) <;> rfl

/-- **`print_object`**, if its loop writes the members. -/
theorem printObject_writes (hloop : LoopWrites mem n inside loop)
    (h : At d w p) : Writes mem n (Done d) w ((inside true (d + 1)).map fun t =>
      123 :: ((if format then [10] else []) ++ (t ++ (indent format true d ++ [125]))))
        (printObject mem format (loop true) p) := by
  have hopen : Writes mem n (At d) w (some (123 :: if format then [10] else []))
      (put mem p ((if format then 2 else 1) + 1) (123 :: if format then [10] else []) (if format then 2 else 1)) := by
    cases format with
    | true => exact put_at mem n [123, 10] [] 3 h (by decide) (by decide)
    | false => exact put_at mem n [123] [] 2 h (by decide) (by decide)
  have hclose : ∀ {w p}, At (d + 1) w p → Writes mem n (Done (d + 1)) w (some (indent format true d ++ [125]))
      (put mem p (if format then p.depth + 1 else 2)
        ((if format then List.replicate (p.depth - 1) 9 else []) ++ [125, 0]) 0) := by
    intro w p hat
    have hzero : 0 ∉ indent format true d ++ [125] := by
      unfold indent
      rw [List.mem_append, not_or]
      refine ⟨fun hmem => ?_, by decide⟩
      split_ifs at hmem
      · exact absurd (List.eq_of_mem_replicate hmem) (by decide)
      · cases hmem
    have hput := put_done mem n _ 0 hat hzero (Nat.zero_le _)
    have hbytes : (if format then List.replicate (p.depth - 1) 9 else []) ++ [125, 0] =
        indent format true d ++ [125] ++ [0] := by
      rw [hat.depth, indent]
      cases format <;> simp
    have hneed : (if format then p.depth + 1 else 2) = (indent format true d ++ [125]).length + 1 := by
      rw [hat.depth, indent]
      cases format <;> simp
    rwa [hbytes, hneed]
  refine (hopen.bind (s := join (inside true (d + 1)) (some (indent format true d ++ [125]))) fun u p _ hat =>
    ?_).congr ?_
  · refine (hloop _ _ _ _ hat.deeper).bind fun u p _ hat => ?_
    exact (hclose hat).then fun w p hdone => ⟨_, rfl, hdone.back⟩
  · cases inside true (d + 1) <;> simp [join]

/-- **`print_value`**, if the loops over the items inside write them. -/
theorem printValue_writes (hloop : LoopWrites mem n inside loop)
    (item : JsonItem) (h : At d w p) :
    Writes mem n (Done d) w (valueText format item d inside) (printValue mem format item loop p) := by
  unfold valueText leafText printValue
  cases item.type with
  | null => exact put_done mem n (lit "null") 0 h (by decide) (Nat.zero_le _)
  | false => exact put_done mem n (lit "false") 0 h (by decide) (Nat.zero_le _)
  | true => exact put_done mem n (lit "true") 0 h (by decide) (Nat.zero_le _)
  | number =>
    dsimp only
    cases hnumber : printNumber item.valuedouble with
    | none =>
      rintro ⟨-, u, hu, -⟩
      cases hu
    | some number => exact put_done mem n _ _ h (zero_notMem_printNumber hnumber) le_rfl
  | raw =>
    dsimp only
    cases item.valuestring with
    | none =>
      rintro ⟨-, u, hu, -⟩
      cases hu
    | some s => exact put_done mem n _ 0 h (zero_notMem_cstr s) (Nat.zero_le _)
  | string => exact printStringPtr_writes h item.valuestring
  | array => exact printArray_writes hloop h
  | object => exact printObject_writes hloop h
  | invalid =>
    rintro ⟨-, u, hu, -⟩
    cases hu

section Rounds

variable {value : PrintBuffer → Printed} {v : Option (List UInt8)} {rest : Forest JsonItem}

theorem printElement_writes (rest : Forest JsonItem)
    (hvalue : ∀ {w p}, At d w p → Writes mem n (Done d) w v (value p)) (h : At d w p) :
    Writes mem n (At d) w (join v (some (behind format false rest)))
      (printElement mem format value (isLast rest) p) := by
  unfold printElement
  rw [← Printed.bind_assoc]
  refine (hvalue h).update.bind fun u p _ hat => ?_
  cases rest with
  | nil => cases format <;> exact .ok hat
  | cons item kids rest =>
    cases format with
    | true => exact put_at mem n [44, 32] [0] 3 hat (by decide) (by decide)
    | false => exact put_at mem n [44] [0] 2 hat (by decide) (by decide)

theorem printMember_writes (rest : Forest JsonItem)
    (hvalue : ∀ {w p}, At d w p → Writes mem n (Done d) w v (value p)) (item : JsonItem)
    (h : At d w p) : Writes mem n (At d) w
      (join (some (indent format true d))
        (join (some (label format true item)) (join v (some (behind format true rest)))))
      (printMember mem format item value (isLast rest) p) := by
  have hindent : Writes mem n (At d) w (some (indent format true d))
      (if format then put mem p p.depth (List.replicate p.depth 9) p.depth else .ok p) := by
    cases format with
    | true =>
      have hput := put_at mem n (List.replicate d 9) [] d h
        (by simp) (by simp)
      rw [List.append_nil, List.length_replicate] at hput
      rw [h.depth]
      exact hput
    | false => exact .ok h
  have hcolon : ∀ {w p}, At d w p → Writes mem n (At d) w (some (58 :: if format then [9] else []))
      (put mem p (if format then 2 else 1) (58 :: if format then [9] else []) (if format then 2 else 1)) := by
    intro w p hat
    cases format with
    | true => exact put_at mem n [58, 9] [] 2 hat (by decide) (by decide)
    | false => exact put_at mem n [58] [] 1 hat (by decide) (by decide)
  have hbehind : ∀ {w p}, At d w p → Writes mem n (At d) w (some (behind format true rest))
      (put mem p ((if format then 1 else 0) + (if isLast rest then 0 else 1) + 1)
        ((if isLast rest then [] else [44]) ++ ((if format then [10] else []) ++ [0]))
        ((if format then 1 else 0) + (if isLast rest then 0 else 1))) := by
    intro w p hat
    cases rest with
    | nil =>
      cases format with
      | true => exact put_at mem n [10] [0] 2 hat (by decide) (by decide)
      | false => exact put_at mem n [] [0] 1 hat (by decide) (by decide)
    | cons item kids rest =>
      cases format with
      | true => exact put_at mem n [44, 10] [0] 3 hat (by decide) (by decide)
      | false => exact put_at mem n [44] [0] 2 hat (by decide) (by decide)
  have hlabel : label format true item = stringText item.string ++ (58 :: if format then [9] else []) := rfl
  refine (hindent.bind (s := join (some (stringText item.string)) (join (some (58 :: if format then [9] else []))
    (join v (some (behind format true rest))))) fun u p _ hat => ?_).congr ?_
  · rw [← Printed.bind_assoc]
    refine (printStringPtr_writes hat item.string).update.bind fun u p _ hat => ?_
    refine (hcolon hat).bind fun u p _ hat => ?_
    rw [← Printed.bind_assoc]
    exact (hvalue hat).update.bind fun u p _ hat => hbehind hat
  · rw [hlabel]
    cases v <;> simp [join]

end Rounds

/-- **The loops of `print_array` and `print_object`**, by induction on the tree. -/
theorem printList_writes (f : Forest JsonItem) : LoopWrites mem n (text format f) (printList mem format f) := by
  induction f with
  | nil => exact fun _ _ _ _ h => .ok h
  | cons item kids rest ihk ihr =>
    intro object d w p h
    have hvalue : ∀ {w p}, At d w p → Writes mem n (Done d) w (valueText format item d (text format kids))
        (printValue mem format item (printList mem format kids) p) := fun h => printValue_writes ihk item h
    rw [printList]
    cases object with
    | false =>
      refine ((printElement_writes rest hvalue h).bind fun u p _ hat => ihr _ _ _ _ hat).congr ?_
      rw [text]
      cases valueText format item d (text format kids) <;> cases text format rest false d <;>
        simp [join, indent, label]
    | true =>
      refine ((printMember_writes rest hvalue item h).bind fun u p _ hat => ihr _ _ _ _ hat).congr ?_
      rw [text]
      cases valueText format item d (text format kids) <;> cases text format rest true d <;> simp [join]

theorem Done.cut (h : Done d w p) : Writes mem n (fun w p => p.buffer = w ++ [0]) w (some [])
    ((updateOffset p).bind fun p => reallocate mem p (p.offset + 1)) := by
  obtain ⟨p', hp', hat⟩ := h.update
  have hbuffer : p'.buffer = p.buffer := by
    unfold updateOffset at hp'
    split at hp'
    · cases hp'
    · cases hp'
      rfl
  have hcut : p.buffer.take (w.length + 1) = w ++ [0] := by
    have htake := List.prefix_iff_eq_take.mp h.written
    rwa [List.length_append, List.length_singleton, eq_comm] at htake
  rw [hp', Printed.bind, hat.offset]
  unfold reallocate
  cases hmem : mem p'.calls with
  | none => exact fun hn => hn.1.1 _ hmem
  | some fresh =>
    refine ⟨[], rfl, ?_⟩
    have hzero : w.length + 1 - p'.buffer.length = 0 := by
      have := hat.room
      omega
    dsimp only
    rw [hzero, hbuffer, hcut, List.range_zero, List.map_nil, List.append_nil, List.append_nil]

end Writes

section Whole

variable {mem : ℕ → Option (ℕ → UInt8)} {format : Bool} {item : JsonItem} {kids : Forest JsonItem}

theorem text_value (item : JsonItem) (kids : Forest JsonItem) :
    text format (.cons item kids .nil) false 0 = valueText format item 0 (text format kids) := by
  rw [text]
  cases valueText format item 0 (text format kids) <;> simp [text, indent, label, behind]

variable (mem format item kids) in
theorem cJSONPrint_cases (n : ℕ) : ∃ result, cJSONPrint mem format item kids = some result ∧
    (∀ out ∈ result, ∃ t, text format (.cons item kids .nil) false 0 = some t ∧ out = t ++ [0]) ∧
      (result = none → ¬ (Enough mem n ∧ ∃ t, text format (.cons item kids .nil) false 0 = some t ∧ t.length ≤ n)) := by
  unfold cJSONPrint
  cases hmem : mem 0 with
  | none => exact ⟨none, rfl, fun out hout => (by cases hout), fun _ hn => hn.1.1 0 hmem⟩
  | some fresh =>
    have hstart : At 0 [] ⟨(List.range 256).map fresh, 0, 0, 1⟩ := by
      refine ⟨List.nil_prefix, rfl, ?_, rfl⟩
      rw [List.length_map, List.length_range]
      exact Nat.zero_lt_succ 255
    have hvalue : Writes mem n (Done 0) [] (valueText format item 0 (text format kids))
        (printValue mem format item (printList mem format kids) ⟨(List.range 256).map fresh, 0, 0, 1⟩) :=
      printValue_writes (printList_writes kids) item hstart
    have hwrites := hvalue.bind fun u p _ hdone => hdone.cut
    rw [join_nil, ← Printed.bind_assoc, ← text_value] at hwrites
    dsimp only
    generalize ((printValue mem format item (printList mem format kids) ⟨(List.range 256).map fresh, 0, 0, 1⟩).bind
      updateOffset).bind (fun p => reallocate mem p (p.offset + 1)) = r at hwrites
    cases r with
    | fault => exact hwrites.elim
    | fail =>
      refine ⟨none, rfl, fun out hout => (by cases hout), fun _ hn => hwrites ?_⟩
      exact hn
    | ok p =>
      refine ⟨some p.buffer, rfl, fun out hout => ?_, fun h => by cases h⟩
      obtain rfl := Option.some.inj hout
      exact hwrites

/-- **`cJSON_Print` stays inside its buffer**, and what it returns is the text of the tree with a NUL. It returns
`NULL` only if the tree has no text, if memory is missing, or if the text is longer than an `int` can count. -/
theorem cJSONPrint_spec (mem : ℕ → Option (ℕ → UInt8)) (format : Bool) (item : JsonItem) (kids : Forest JsonItem) :
    ∃ result, cJSONPrint mem format item kids = some result ∧
      (∀ out ∈ result, ∃ t, text format (.cons item kids .nil) false 0 = some t ∧ out = t ++ [0]) ∧
      (result = none → ∀ t, text format (.cons item kids .nil) false 0 = some t →
        (∃ k, mem k = none) ∨ intMax < t.length + 2) := by
  cases ht : text format (.cons item kids .nil) false 0 with
  | none =>
    obtain ⟨result, hrun, hout, -⟩ := cJSONPrint_cases mem format item kids 0
    rw [ht] at hout
    exact ⟨result, hrun, hout, fun _ t h => by cases h⟩
  | some t =>
    obtain ⟨result, hrun, hout, hnone⟩ := cJSONPrint_cases mem format item kids t.length
    rw [ht] at hout hnone
    refine ⟨result, hrun, hout, fun hfail u hu => ?_⟩
    obtain rfl := Option.some.inj hu
    by_contra hn
    rw [not_or, not_exists, not_lt] at hn
    exact hnone hfail ⟨⟨hn.1, hn.2⟩, t, rfl, le_rfl⟩

theorem exists_text_of_print {out : List UInt8} (hprint : Printable (.cons item kids .nil))
    (hout : cJSONPrint mem format item kids = some (some out)) :
    ∃ t, text format (.cons item kids .nil) false 0 = some t ∧ cJSONParse out = cJSONParse t := by
  obtain ⟨result, hrun, htext, -⟩ := cJSONPrint_cases mem format item kids 0
  rw [hout, Option.some.injEq] at hrun
  obtain ⟨t, ht, rfl⟩ := htext out hrun.symm
  have hzero := zero_notMem_text hprint ht
  refine ⟨t, ht, ?_⟩
  unfold cJSONParse
  rw [cstr_append_zero hzero, cstr_of_notMem hzero]

/-- **A printed tree is read back** by `cJSON_Parse`, if arrays and objects are nested at most 1000 times, and is
refused else. -/
theorem cJSONParse_print {out : List UInt8} (hprint : Printable (.cons item kids .nil))
    (hout : cJSONPrint mem format item kids = some (some out)) :
    (nesting (.cons item kids .nil) ≤ nestingLimit → cJSONParse out = some (.ok (wire (.cons item kids .nil) false))) ∧
      (nestingLimit < nesting (.cons item kids .nil) → ∃ position, cJSONParse out = some (.error position)) := by
  obtain ⟨t, ht, heq⟩ := exists_text_of_print hprint hout
  rw [heq]
  exact cJSONParse_text hprint ht

/-- An array with the string `a"b`. -/
def sampleArray : JsonItem × Forest JsonItem := (newItem .array, .cons (createString (lit "a\"b")) .nil .nil)

theorem sampleArray_printed : cJSONPrint (fun _ => some fun _ => 0) false sampleArray.1 sampleArray.2 =
    some (some (lit "[\"a\\\"b\"]" ++ [0])) := by decide +kernel

theorem cJSONParse_print_array : (nesting (.cons sampleArray.1 sampleArray.2 .nil) ≤ nestingLimit →
      cJSONParse (lit "[\"a\\\"b\"]" ++ [0]) = some (.ok (wire (.cons sampleArray.1 sampleArray.2 .nil) false))) ∧
    (nestingLimit < nesting (.cons sampleArray.1 sampleArray.2 .nil) →
      ∃ position, cJSONParse (lit "[\"a\\\"b\"]" ++ [0]) = some (.error position)) :=
  cJSONParse_print ⟨⟨trivial, trivial⟩, trivial⟩ sampleArray_printed

/-- **A parsed tree that is printed and parsed again** is the same tree, in both formats, if its numbers are finite. -/
theorem cJSONParse_reprint {value out : List UInt8} (hparse : cJSONParse value = some (.ok (.cons item kids .nil)))
    (hfin : FiniteNumbers (.cons item kids .nil)) (hout : cJSONPrint mem format item kids = some (some out)) :
    cJSONParse out = some (.ok (.cons item kids .nil)) := by
  obtain ⟨item', kids', htree, hacc⟩ := cJSONParse_accepted hparse
  obtain ⟨t, ht, heq⟩ := exists_text_of_print hacc.printable hout
  rw [heq, (cJSONParse_text hacc.printable ht).1 hacc.nesting, hacc.wire hfin]

theorem cJSONParse_reprint_array : cJSONParse (lit "[\"a\\\"b\"]" ++ [0]) =
    some (.ok (.cons sampleArray.1 sampleArray.2 .nil)) :=
  cJSONParse_reprint (show cJSONParse (lit " [ \"a\\u0022b\" ]") =
    some (.ok (.cons sampleArray.1 sampleArray.2 .nil)) by
    decide +kernel) ⟨by rintro ⟨⟩, ⟨by rintro ⟨⟩, trivial, trivial⟩, trivial⟩ sampleArray_printed

end Whole

end Sarah.JsonText
