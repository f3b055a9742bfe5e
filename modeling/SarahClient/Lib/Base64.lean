import Mathlib.Data.List.GetD
import SarahClient.Lib.BitGroups

/-!
# Base 64

Bytes are regrouped into numbers of six bits, and each number is one of sixty-four characters.

* `sextets`, `octets`: bytes into numbers of six bits, and back; **`octets_sextets`**;
* `char`, `text`: the alphabet, and a text with its padding;
* `Breaks`: a text in lines;
* `sextets_three`, `octets_four`: one whole group in arithmetic.
-/

namespace Base64

open BitGroups

/-- The numbers of six bits; zeros fill the last one. -/
def sextets (xs : List ℕ) : List ℕ := groups 6 ((8 * xs.length + 5) / 6) (stream 8 xs ++ List.replicate 4 false)

/-- The bytes of the numbers of six bits; the bits that fill no byte are dropped. -/
def octets (ds : List ℕ) : List ℕ := groups 8 (6 * ds.length / 8) (stream 6 ds)

/-- The 64 characters, in the order of their values. -/
def alphabet : List UInt8 :=
  (List.range 26).map (fun i => UInt8.ofNat (65 + i)) ++ (List.range 26).map (fun i => UInt8.ofNat (97 + i)) ++
    (List.range 10).map (fun i => UInt8.ofNat (48 + i)) ++ [43, 47]

/-- A number of six bits as a character. -/
def char (d : ℕ) : UInt8 := alphabet.getD d 0

/-- The text of some bytes, filled up to whole groups of four. -/
def text (src : List UInt8) : List UInt8 :=
  (sextets (src.map UInt8.toNat)).map char ++ List.replicate ((3 - src.length % 3) % 3) 61

/-- The text is the characters with line breaks between them; spaces stand before a break and at the end only. -/
inductive Breaks : List UInt8 → List UInt8 → Prop
  | done (k : ℕ) : Breaks [] (List.replicate k 32)
  | char (c : UInt8) {cs t : List UInt8} : Breaks cs t → Breaks (c :: cs) (c :: t)
  | lf (k : ℕ) {cs t : List UInt8} : Breaks cs t → Breaks cs (List.replicate k 32 ++ 10 :: t)
  | cr (k : ℕ) {cs t : List UInt8} : Breaks cs (10 :: t) → Breaks cs (List.replicate k 32 ++ 13 :: 10 :: t)

/-! ## Groups -/

@[simp] theorem length_sextets (xs : List ℕ) : (sextets xs).length = (8 * xs.length + 5) / 6 := length_groups _ _ _

@[simp] theorem length_octets (ds : List ℕ) : (octets ds).length = 6 * ds.length / 8 := length_groups _ _ _

theorem sextets_lt {xs : List ℕ} {d : ℕ} (h : d ∈ sextets xs) : d < 64 := groups_lt h

/-- **Back to the bytes.** -/
theorem octets_sextets {xs : List ℕ} (h : ∀ x ∈ xs, x < 256) : octets (sextets xs) = xs := by
  have hlen : 6 * (sextets xs).length / 8 = xs.length := by rw [length_sextets]; omega
  rw [octets, hlen]
  exact regroup_regroup h (by omega) (by rw [List.length_replicate]; omega)

theorem length_text (src : List UInt8) : (text src).length = 4 * ((src.length + 2) / 3) := by
  rw [text, List.length_append, List.length_map, List.length_replicate, length_sextets, List.length_map]
  omega

theorem Breaks.length_le {cs t : List UInt8} (h : Breaks cs t) : cs.length ≤ t.length := by
  induction h with
  | done k => simp
  | char c h ih => simpa using ih
  | lf k h ih => rw [List.length_append, List.length_cons]; omega
  | cr k h ih => rw [List.length_append, List.length_cons]; omega

/-- A text in lines has no other characters than the text, spaces and line ends. -/
theorem Breaks.mem {cs t : List UInt8} (h : Breaks cs t) {c : UInt8} (hc : c ∈ t) :
    c ∈ cs ∨ c = 32 ∨ c = 10 ∨ c = 13 := by
  induction h with
  | done k => exact .inr (.inl (List.eq_of_mem_replicate hc))
  | char d h ih =>
    rw [List.mem_cons] at hc ⊢
    rcases hc with rfl | hc
    · exact .inl (.inl rfl)
    · exact (ih hc).imp_left .inr
  | lf k h ih =>
    rw [List.mem_append, List.mem_cons] at hc
    rcases hc with hc | rfl | hc
    · exact .inr (.inl (List.eq_of_mem_replicate hc))
    · exact .inr (.inr (.inl rfl))
    · exact ih hc
  | cr k h ih =>
    rw [List.mem_append, List.mem_cons] at hc
    rcases hc with hc | rfl | hc
    · exact .inr (.inl (List.eq_of_mem_replicate hc))
    · exact .inr (.inr (.inr rfl))
    · exact ih hc

theorem Breaks.refl : ∀ cs : List UInt8, Breaks cs cs
  | [] => .done 0
  | c :: cs => .char c (Breaks.refl cs)

theorem stream_four {a b c d : ℕ} (hb : b < 64) (hc : c < 64) (hd : d < 64) :
    stream 6 [a, b, c, d] = stream 8 [a * 4 + b / 16, b % 16 * 16 + c / 4, c % 4 * 64 + d] := by
  simp only [stream_cons, stream_nil, List.append_nil, bits_append]
  apply bits_congr
  omega

theorem stream_three {a b c : ℕ} (hb : b < 64) (hc : c < 64) :
    stream 6 [a, b, c] = stream 8 [a * 4 + b / 16, b % 16 * 16 + c / 4] ++ bits 2 c := by
  simp only [stream_cons, stream_nil, List.append_nil, bits_append]
  apply bits_congr
  omega

theorem stream_two {a b : ℕ} (hb : b < 64) : stream 6 [a, b] = stream 8 [a * 4 + b / 16] ++ bits 4 b := by
  simp only [stream_cons, stream_nil, List.append_nil, bits_append]
  apply bits_congr
  omega

theorem octets_four {a b c d : ℕ} (ha : a < 64) (hb : b < 64) (hc : c < 64) (hd : d < 64) (ds : List ℕ) :
    octets (a :: b :: c :: d :: ds) = [a * 4 + b / 16, b % 16 * 16 + c / 4, c % 4 * 64 + d] ++ octets ds := by
  have hlen : 6 * (a :: b :: c :: d :: ds).length / 8 = 3 + 6 * ds.length / 8 := by simp only [List.length_cons]; omega
  have hgroups : groups 8 3 (stream 6 [a, b, c, d]) = [a * 4 + b / 16, b % 16 * 16 + c / 4, c % 4 * 64 + d] := by
    have h := groups_stream (n := 8) [a * 4 + b / 16, b % 16 * 16 + c / 4, c % 4 * 64 + d]
      (by simp; omega) []
    rwa [List.append_nil, ← stream_four hb hc hd] at h
  rw [octets, hlen, show a :: b :: c :: d :: ds = [a, b, c, d] ++ ds from rfl, stream_append,
    groups_append (by simp), hgroups]
  rfl

theorem octets_three {a b c : ℕ} (ha : a < 64) (hb : b < 64) (hc : c < 64) :
    octets [a, b, c] = [a * 4 + b / 16, b % 16 * 16 + c / 4] := by
  have h := groups_stream (n := 8) [a * 4 + b / 16, b % 16 * 16 + c / 4] (by simp; omega) (bits 2 c)
  rw [← stream_three hb hc] at h
  rw [octets, show 6 * [a, b, c].length / 8 = 2 by simp]
  exact h

theorem octets_two {a b : ℕ} (ha : a < 64) (hb : b < 64) : octets [a, b] = [a * 4 + b / 16] := by
  have h := groups_stream (n := 8) [a * 4 + b / 16] (by simp; omega) (bits 4 b)
  rw [← stream_two hb] at h
  rw [octets, show 6 * [a, b].length / 8 = 1 by simp]
  exact h

theorem sextets_three {a b c : ℕ} (ha : a < 256) (hb : b < 256) (hc : c < 256) (xs : List ℕ) :
    sextets (a :: b :: c :: xs) = [a / 4, a % 4 * 16 + b / 16, b % 16 * 4 + c / 64, c % 64] ++ sextets xs := by
  have hlen : (8 * (a :: b :: c :: xs).length + 5) / 6 = 4 + (8 * xs.length + 5) / 6 := by
    simp only [List.length_cons]; omega
  have hstream : stream 6 [a / 4, a % 4 * 16 + b / 16, b % 16 * 4 + c / 64, c % 64] = stream 8 [a, b, c] := by
    rw [stream_four (by omega) (by omega) (by omega), show a / 4 * 4 + (a % 4 * 16 + b / 16) / 16 = a by omega,
      show (a % 4 * 16 + b / 16) % 16 * 16 + (b % 16 * 4 + c / 64) / 4 = b by omega,
      show (b % 16 * 4 + c / 64) % 4 * 64 + c % 64 = c by omega]
  have hgroups : groups 6 4 (stream 8 [a, b, c]) = [a / 4, a % 4 * 16 + b / 16, b % 16 * 4 + c / 64, c % 64] := by
    have h := groups_stream (n := 6) [a / 4, a % 4 * 16 + b / 16, b % 16 * 4 + c / 64, c % 64] (by simp; omega) []
    rwa [List.append_nil, hstream] at h
  rw [sextets, hlen, show a :: b :: c :: xs = [a, b, c] ++ xs from rfl, stream_append, List.append_assoc,
    groups_append (by simp), hgroups]
  rfl

theorem sextets_two {a b : ℕ} (ha : a < 256) (hb : b < 256) :
    sextets [a, b] = [a / 4, a % 4 * 16 + b / 16, b % 16 * 4] := by
  have hstream : stream 8 [a, b] ++ List.replicate 4 false =
      stream 6 [a / 4, a % 4 * 16 + b / 16, b % 16 * 4] ++ List.replicate 2 false := by
    rw [stream_three (by omega) (by omega), show a / 4 * 4 + (a % 4 * 16 + b / 16) / 16 = a by omega,
      show (a % 4 * 16 + b / 16) % 16 * 16 + b % 16 * 4 / 4 = b by omega,
      show bits 2 (b % 16 * 4) = List.replicate 2 false from bits_congr (y := 0) (by omega), List.append_assoc]
    rfl
  have h := groups_stream (n := 6) [a / 4, a % 4 * 16 + b / 16, b % 16 * 4] (by simp; omega) (List.replicate 2 false)
  rw [← hstream] at h
  rw [sextets, show (8 * [a, b].length + 5) / 6 = 3 by simp]
  exact h

theorem sextets_one {a : ℕ} (ha : a < 256) : sextets [a] = [a / 4, a % 4 * 16] := by
  have hstream : stream 8 [a] ++ List.replicate 4 false = stream 6 [a / 4, a % 4 * 16] := by
    rw [stream_two (by omega), show a / 4 * 4 + a % 4 * 16 / 16 = a by omega,
      show bits 4 (a % 4 * 16) = List.replicate 4 false from bits_congr (y := 0) (by omega)]
  have h := groups_stream (n := 6) [a / 4, a % 4 * 16] (by simp; omega) []
  rw [List.append_nil, ← hstream] at h
  rw [sextets, show (8 * [a].length + 5) / 6 = 2 by simp]
  exact h

end Base64
