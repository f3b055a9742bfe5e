import SarahClient.CInt

/-!
# The paths of `lua_import`

Two buffers of 256 bytes: the cache path is written with a bound, the download URL without.

* `mapDots`, `luaImportPaths`: the name, the length check and the two paths;
* `Runs`: the one name starts with the other and the suffix, as far as the cache path goes;
* **`importPaths_iff`**: when the paths are complete, and when two names share a cache path.
-/

namespace Sarah.Import

/-- `APRIL_PACKAGE_BASE_DIR` -/
def aprilPackageBaseDir : List UInt8 := lit "/usr/local/lib/april/"

/-- `APRIL_PACKAGE_BASE_URL` -/
def aprilPackageBaseUrl : List UInt8 := lit "http://lib.grandhelmsman.com/"

/-- `for ( i = 0; i < len; i++ )`, where `len` is an `int`: dots become underscores. -/
def mapDots (modname : List UInt8) : List UInt8 :=
  let len := (i32 modname.length).toNat
  (modname.take len).map (fun c => if c = 46 then 95 else c) ++ modname.drop len

/-- `"%s__loader/%s_init.lua"` -/
def loaderText (base modname : List UInt8) : List UInt8 := base ++ lit "__loader/" ++ (modname ++ lit "_init.lua")

/-- `snprintf` leaves room for the NUL. -/
def snprintf (size : ℕ) (text : List UInt8) : List UInt8 := text.take (size - 1)

/-- `sprintf` into an array of `size` bytes; `none` where the text and its NUL run out of it. -/
def sprintf (size : ℕ) (text : List UInt8) : Option (List UInt8) := if text.length < size then some text else none

/-- `modfile` and `modurl` of a name that passes the length check. -/
def luaImportPaths (modname : List UInt8) : Option (List UInt8 × Option (List UInt8)) :=
  if 256 ≤ i32 modname.length then none
  else
    let modname := mapDots modname
    some (snprintf (256 - 1) (loaderText aprilPackageBaseDir modname),
      sprintf 256 (loaderText aprilPackageBaseUrl modname))

/-- Both paths are there in full. -/
def Complete (modname : List UInt8) (paths : List UInt8 × Option (List UInt8)) : Prop :=
  paths.1 = loaderText aprilPackageBaseDir (mapDots modname) ∧
    paths.2 = some (loaderText aprilPackageBaseUrl (mapDots modname))

/-- `b` is too long for its suffix in the cache path, and what is left of it starts with `a` and its suffix. -/
def Runs (a b : List UInt8) : Prop := 224 ≤ b.length ∧ b.take 224 = (a ++ lit "_init.lua").take 224

instance (a b : List UInt8) : Decidable (Runs a b) := instDecidableAnd

theorem length_mapDots (modname : List UInt8) : (mapDots modname).length = modname.length := by
  unfold mapDots
  rw [List.length_append, List.length_map, ← List.length_append, List.take_append_drop]

theorem length_loaderText (base modname : List UInt8) :
    (loaderText base modname).length = base.length + modname.length + 18 := by
  have hloader : (lit "__loader/").length = 9 := rfl
  have hinit : (lit "_init.lua").length = 9 := rfl
  unfold loaderText
  rw [List.length_append, List.length_append, List.length_append, hloader, hinit]
  omega

theorem suffix_starts_once {k : ℕ} (hk : 0 < k) : (lit "_init.lua")[k]? ≠ (lit "_init.lua")[0]? := by
  rcases Nat.lt_or_ge k 9 with hlt | hge
  · have hall : ∀ k < 9, 0 < k → (lit "_init.lua")[k]? ≠ (lit "_init.lua")[0]? := by decide
    exact hall k hlt hk
  · rw [List.getElem?_eq_none (show (lit "_init.lua").length ≤ k from hge)]
    decide

theorem eq_of_take {a b : List UInt8} (ha : a.length < 224) (hb : b.length < 224)
    (h : (a ++ lit "_init.lua").take 224 = (b ++ lit "_init.lua").take 224) : a = b := by
  have hget : ∀ i < 224, (a ++ lit "_init.lua")[i]? = (b ++ lit "_init.lua")[i]? := fun i hi => by
    rw [← List.getElem?_take_of_lt hi, h, List.getElem?_take_of_lt hi]
  have hlen : a.length = b.length := by
    rcases lt_trichotomy a.length b.length with hlt | heq | hgt
    · have hat := hget b.length hb
      rw [List.getElem?_append_right (Nat.le_of_lt hlt), List.getElem?_append_right le_rfl, Nat.sub_self] at hat
      exact absurd hat (suffix_starts_once (Nat.sub_pos_of_lt hlt))
    · exact heq
    · have hat := hget a.length ha
      rw [List.getElem?_append_right le_rfl, List.getElem?_append_right (Nat.le_of_lt hgt), Nat.sub_self] at hat
      exact absurd hat.symm (suffix_starts_once (Nat.sub_pos_of_lt hgt))
  refine List.ext_getElem? fun i => ?_
  rcases Nat.lt_or_ge i a.length with hi | hi
  · have hat := hget i (by omega)
    rwa [List.getElem?_append_left hi, List.getElem?_append_left (by omega)] at hat
  · rw [List.getElem?_eq_none hi, List.getElem?_eq_none (by omega)]

theorem modfile_eq_iff {a b : List UInt8} (hne : a ≠ b) :
    snprintf 255 (loaderText aprilPackageBaseDir a) = snprintf 255 (loaderText aprilPackageBaseDir b) ↔
      Runs a b ∨ Runs b a := by
  have hbase : (aprilPackageBaseDir ++ lit "__loader/").length = 30 := rfl
  have htake : ∀ c, snprintf 255 (loaderText aprilPackageBaseDir c) =
      aprilPackageBaseDir ++ lit "__loader/" ++ (c ++ lit "_init.lua").take 224 := fun c => by
    rw [snprintf, loaderText, List.take_append, hbase, List.take_of_length_le (by rw [hbase]; decide)]
  rw [htake, htake, List.append_right_inj]
  unfold Runs
  constructor
  · intro h
    rcases Nat.lt_or_ge b.length 224 with hb | hb
    · rcases Nat.lt_or_ge a.length 224 with ha | ha
      · exact absurd (eq_of_take ha hb h) hne
      · exact .inr ⟨ha, by rw [← h, List.take_append_of_le_length ha]⟩
    · exact .inl ⟨hb, by rw [h, List.take_append_of_le_length hb]⟩
  · rintro (⟨hb, h⟩ | ⟨ha, h⟩)
    · rw [← h, List.take_append_of_le_length hb]
    · rw [← h, List.take_append_of_le_length ha]

theorem luaImportPaths_of_lt {s : List UInt8} (h : s.length < 256) : luaImportPaths s =
    some (snprintf (256 - 1) (loaderText aprilPackageBaseDir (mapDots s)),
      sprintf 256 (loaderText aprilPackageBaseUrl (mapDots s))) := by
  have hint : i32 s.length = s.length := i32_of_range (by omega) (by omega)
  exact if_neg (by rw [hint]; omega)

theorem complete_iff (modname : List UInt8) :
    Complete modname (snprintf (256 - 1) (loaderText aprilPackageBaseDir (mapDots modname)),
      sprintf 256 (loaderText aprilPackageBaseUrl (mapDots modname))) ↔ modname.length ≤ 208 := by
  have hbaseDir : aprilPackageBaseDir.length = 21 := rfl
  have hbaseUrl : aprilPackageBaseUrl.length = 29 := rfl
  have hdir := length_loaderText aprilPackageBaseDir (mapDots modname)
  have hurl := length_loaderText aprilPackageBaseUrl (mapDots modname)
  rw [length_mapDots, hbaseDir] at hdir
  rw [length_mapDots, hbaseUrl] at hurl
  constructor
  · rintro ⟨-, h⟩
    rw [sprintf] at h
    split_ifs at h with hfit
    omega
  · intro h
    have hdirFits : (loaderText aprilPackageBaseDir (mapDots modname)).length ≤ 254 := by omega
    have hurlFits : (loaderText aprilPackageBaseUrl (mapDots modname)).length < 256 := by omega
    refine ⟨List.take_of_length_le hdirFits, ?_⟩
    rw [sprintf, if_pos hurlFits]

/-- **The paths of two modules.** Names that pass the length check have complete paths exactly up to 208 characters; two
different names have different cache paths unless one runs into the other. -/
theorem importPaths_iff {a b : List UInt8} {p q : List UInt8 × Option (List UInt8)} (ha : luaImportPaths a = some p)
    (hb : luaImportPaths b = some q) :
    (Complete a p ↔ a.length ≤ 208) ∧
      (mapDots a ≠ mapDots b → (p.1 ≠ q.1 ↔ ¬ Runs (mapDots a) (mapDots b) ∧ ¬ Runs (mapDots b) (mapDots a))) := by
  unfold luaImportPaths at ha hb
  split_ifs at ha with hpa
  split_ifs at hb with hpb
  cases ha
  cases hb
  refine ⟨complete_iff a, fun hne => ?_⟩
  rw [← not_or]
  exact not_congr (modfile_eq_iff hne)

/-- The modules `cjson` and `net.http`. -/
theorem importPaths_iff_names : ∃ p q, luaImportPaths (lit "cjson") = some p ∧
    luaImportPaths (lit "net.http") = some q ∧
    Complete (lit "cjson") p ∧ p.1 ≠ q.1 := by
  have hcjson := luaImportPaths_of_lt (s := lit "cjson") (by decide)
  have hhttp := luaImportPaths_of_lt (s := lit "net.http") (by decide)
  obtain ⟨hcomplete, hdistinct⟩ := importPaths_iff hcjson hhttp
  exact ⟨_, _, hcjson, hhttp, hcomplete.mpr (by decide), (hdistinct (by decide)).mpr ⟨by decide, by decide⟩⟩

/-- A name of 209 letters: the URL and its NUL have 257 bytes. -/
theorem not_importPaths : ¬ ∀ (a b : List UInt8) (p q : List UInt8 × Option (List UInt8)), luaImportPaths a = some p →
    luaImportPaths b = some q → Complete a p ∧ (mapDots a ≠ mapDots b → p.1 ≠ q.1) := by
  intro h
  have hlen : (List.replicate 209 (97 : UInt8)).length = 209 := List.length_replicate
  have hpasses := luaImportPaths_of_lt (s := List.replicate 209 97) (by omega)
  have hcomplete := (complete_iff _).mp (h _ _ _ _ hpasses hpasses).1
  omega

end Sarah.Import
