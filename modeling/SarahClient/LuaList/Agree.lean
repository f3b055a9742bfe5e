import SarahClient.LuaList.Model
import SarahClient.Link.Refine

/-!
# The two Lua list modules agree

* `pushOrNil_pack`: values that are no objects are given back as they were packed;
* `ListModule.Refines`: the C functions of a module act as on a list;
* `luaListCall_refines`: then so do its Lua functions;
* `arraylist_refines`, `linklist_refines`;
* **`lists_agree`**: one history, the same results;
* **`not_lists_agree`**: `addFirst` on an empty list.
-/

namespace Sarah

open Heap DNode Machine

/-! ## Packed values -/

/-- Values that are no objects. -/
def TValue.Plain : TValue → Prop
  | .gcobject _ _ => False
  | _ => True

theorem TValue.Scalar.plain {v : TValue} (h : v.Scalar) : v.Plain := by
  cases v with
  | gcobject tt p => exact h.elim
  | _ => trivial

theorem pushOrNil_pack {v : TValue} (h : v.Plain) : pushOrNil (pack v) = v := by
  cases v with
  | gcobject tt p => exact h.elim
  | _ => rfl

theorem pack_eq_some {v : TValue} (h : v.Plain) (hnil : v ≠ .nil) : ∃ val, pack v = some val ∧ pushMval val = v := by
  cases v with
  | nil => exact absurd rfl hnil
  | gcobject tt p => exact h.elim
  | _ => exact ⟨_, rfl, rfl⟩

theorem pack_of_scalar {v : TValue} (h : v.Scalar) : ∃ val, pack v = some val ∧ pushMval val = v :=
  pack_eq_some h.plain (by rintro rfl; exact h.elim)

theorem pushOrNil_getD (o : Option TValue) (h : ∀ v ∈ o, v.Plain) : pushOrNil ((o.map pack).getD 0) = o.getD .nil := by
  cases o with
  | none => rfl
  | some v => exact pushOrNil_pack (h v rfl)

/-! ## One call -/

/-- The functions of a module act as on a list of packed values; adding needs `Adds` (and `First` at the front),
removing an element needs `Dels`. -/
structure ListModule.Refines {S : Type} (M : ListModule S) (Holds : S → List (Option MVal) → Prop)
    (Adds Dels First : S → Prop) : Prop where
  size {s vs} : Holds s vs → M.size s = vs.length
  insert {s vs} (idx v) : Holds s vs → (idx < vs.length → Adds s) → ∃ s', M.insert s idx v = some s' ∧
    Holds s' (if idx < vs.length then vs.take idx ++ v :: vs.drop idx else vs)
  addFirst {s vs} (v) : Holds s vs → First s → Adds s → ∃ s', M.addFirst s v = some s' ∧ Holds s' (v :: vs)
  addLast {s vs} (v) : Holds s vs → Adds s → ∃ s', M.addLast s v = some s' ∧ Holds s' (vs ++ [v])
  remove {s vs} (idx) : Holds s vs → (idx < vs.length → Dels s) →
    ∃ s', M.remove s idx = some (vs[idx]?.getD 0, s') ∧ Holds s' (vs.eraseIdx idx)
  removeFirst {s vs} : Holds s vs → (0 < vs.length → Dels s) →
    ∃ s', M.removeFirst s = some (vs.head?.getD 0, s') ∧ Holds s' vs.tail
  removeLast {s vs} : Holds s vs → (0 < vs.length → Dels s) →
    ∃ s', M.removeLast s = some (vs.getLast?.getD 0, s') ∧ Holds s' vs.dropLast
  get {s vs} (idx) : Holds s vs → M.get s idx = some (vs[idx]?.getD 0)
  set {s vs} (idx v) : Holds s vs → ∃ s', M.set s idx v = some (vs[idx]?.getD 0, s') ∧ Holds s' (vs.set idx v)
  iterate {s} {vs : List TValue} : Holds s (vs.map pack) → (∀ v ∈ vs, v.Scalar) → M.iterate s = some vs

/-- The value that a call stores. -/
def ListCall.value : ListCall → Option TValue
  | .insert _ value | .addFirst value | .addLast value | .set _ value => some value
  | _ => none

theorem ListCall.Scalar.value {o : ListCall} (h : o.Scalar) : ∀ v ∈ o.value, v.Scalar := by
  cases o with
  | insert idx value => exact fun v hv => Option.mem_some_iff.mp hv ▸ h
  | addFirst value => exact fun v hv => Option.mem_some_iff.mp hv ▸ h
  | addLast value => exact fun v hv => Option.mem_some_iff.mp hv ▸ h
  | set idx value => exact fun v hv => Option.mem_some_iff.mp hv ▸ h
  | _ => exact nofun

theorem luaListStep_forall {P : TValue → Prop} {vs : List TValue} {o : ListCall} (hvs : ∀ v ∈ vs, P v)
    (ho : ∀ v ∈ o.value, P v) : ∀ v ∈ (luaListStep vs o).1, P v := by
  intro v hv
  cases o with
  | insert idx value =>
    unfold luaListStep at hv
    dsimp only at hv
    cases hi : idxCheck vs.length idx with
    | none =>
      rw [hi] at hv
      exact hvs v hv
    | some i =>
      rw [hi] at hv
      dsimp only at hv
      split_ifs at hv
      · rw [List.mem_append, List.mem_cons] at hv
        obtain hv | rfl | hv := hv
        · exact hvs v (List.mem_of_mem_take hv)
        · exact ho _ rfl
        · exact hvs v (List.mem_of_mem_drop hv)
      · exact hvs v hv
  | addFirst value =>
    obtain rfl | hv := List.mem_cons.mp hv
    · exact ho _ rfl
    · exact hvs v hv
  | addLast value =>
    obtain hv | hv := List.mem_append.mp hv
    · exact hvs v hv
    · obtain rfl := List.mem_singleton.mp hv
      exact ho _ rfl
  | remove idx =>
    unfold luaListStep at hv
    dsimp only at hv
    cases hi : idxCheck vs.length idx with
    | none =>
      rw [hi] at hv
      exact hvs v hv
    | some i =>
      rw [hi] at hv
      exact hvs v (List.mem_of_mem_eraseIdx hv)
  | removeFirst => exact hvs v (List.mem_of_mem_tail hv)
  | removeLast => exact hvs v (List.mem_of_mem_dropLast hv)
  | get idx =>
    unfold luaListStep at hv
    dsimp only at hv
    cases hi : idxCheck vs.length idx with
    | none =>
      rw [hi] at hv
      exact hvs v hv
    | some i =>
      rw [hi] at hv
      exact hvs v hv
  | set idx value =>
    unfold luaListStep at hv
    dsimp only at hv
    cases hi : idxCheck vs.length idx with
    | none =>
      rw [hi] at hv
      exact hvs v hv
    | some i =>
      rw [hi] at hv
      obtain hv | rfl := List.mem_or_eq_of_mem_set hv
      · exact hvs v hv
      · exact ho _ rfl
  | size => exact hvs v hv
  | iterate => exact hvs v hv

section Call

variable {S : Type} {M : ListModule S} {Holds : S → List (Option MVal) → Prop} {Adds Dels First : S → Prop}

/-- **One Lua call is one list operation.** -/
theorem luaListCall_refines (hM : M.Refines Holds Adds Dels First) {s : S} {vs : List TValue}
    (hs : Holds s (vs.map pack)) (hvs : ∀ v ∈ vs, v.Plain) {o : ListCall}
    (hiterate : o = .iterate → ∀ v ∈ vs, v.Scalar) (hneeds : o.Needs vs.length (Adds s) (Dels s) (First s)) :
    ∃ s', luaListCall M s o = some (s', (luaListStep vs o).2) ∧ Holds s' ((luaListStep vs o).1.map pack) := by
  have hsize : M.size s = vs.length := by rw [hM.size hs, List.length_map]
  have hpush : ∀ i : ℕ, pushOrNil ((vs.map pack)[i]?.getD 0) = vs[i]?.getD .nil := by
    intro i
    rw [List.getElem?_map]
    exact pushOrNil_getD _ fun v hv => hvs v (List.mem_of_getElem? hv)
  cases o with
  | insert idx value =>
    unfold luaListCall luaListStep
    dsimp only
    rw [hsize]
    cases hi : idxCheck vs.length idx with
    | none => exact ⟨s, rfl, hs⟩
    | some i =>
      obtain ⟨s', hcall, hs'⟩ := hM.insert i (pack value) hs (by rw [List.length_map]; exact hneeds i hi)
      refine ⟨s', by dsimp only; rw [hcall, Option.map_some], ?_⟩
      rw [List.length_map] at hs'
      dsimp only
      split_ifs at hs' ⊢
      · rw [List.map_append, List.map_cons, List.map_take, List.map_drop]
        exact hs'
      · exact hs'
  | addFirst value =>
    obtain ⟨s', hcall, hs'⟩ := hM.addFirst (pack value) hs hneeds.1 hneeds.2
    refine ⟨s', ?_, hs'⟩
    show (M.addFirst s (pack value)).map _ = _
    rw [hcall, Option.map_some]
    rfl
  | addLast value =>
    obtain ⟨s', hcall, hs'⟩ := hM.addLast (pack value) hs hneeds
    refine ⟨s', ?_, ?_⟩
    · show (M.addLast s (pack value)).map _ = _
      rw [hcall, Option.map_some]
      rfl
    · show Holds s' ((vs ++ [value]).map pack)
      rw [List.map_append]
      exact hs'
  | remove idx =>
    unfold luaListCall luaListStep
    dsimp only
    rw [hsize]
    cases hi : idxCheck vs.length idx with
    | none => exact ⟨s, rfl, hs⟩
    | some i =>
      obtain ⟨s', hcall, hs'⟩ := hM.remove i hs (by rw [List.length_map]; exact hneeds i hi)
      refine ⟨s', by dsimp only; rw [hcall, Option.map_some, hpush], ?_⟩
      rw [← List.eraseIdx_map]
      exact hs'
  | removeFirst =>
    obtain ⟨s', hcall, hs'⟩ := hM.removeFirst hs (by rw [List.length_map]; exact hneeds)
    refine ⟨s', ?_, ?_⟩
    · show (M.removeFirst s).map _ = _
      rw [hcall, Option.map_some, List.head?_map, pushOrNil_getD _ fun v hv => hvs v (List.mem_of_head? hv)]
      rfl
    · show Holds s' (vs.tail.map pack)
      rw [List.map_tail]
      exact hs'
  | removeLast =>
    obtain ⟨s', hcall, hs'⟩ := hM.removeLast hs (by rw [List.length_map]; exact hneeds)
    refine ⟨s', ?_, ?_⟩
    · show (M.removeLast s).map _ = _
      rw [hcall, Option.map_some, List.getLast?_map, pushOrNil_getD _ fun v hv => hvs v (List.mem_of_getLast? hv)]
      rfl
    · show Holds s' (vs.dropLast.map pack)
      rw [List.map_dropLast]
      exact hs'
  | get idx =>
    unfold luaListCall luaListStep
    dsimp only
    rw [hsize]
    cases hi : idxCheck vs.length idx with
    | none => exact ⟨s, rfl, hs⟩
    | some i => exact ⟨s, by dsimp only; rw [hM.get i hs, Option.map_some, hpush], hs⟩
  | set idx value =>
    unfold luaListCall luaListStep
    dsimp only
    rw [hsize]
    cases hi : idxCheck vs.length idx with
    | none => exact ⟨s, rfl, hs⟩
    | some i =>
      obtain ⟨s', hcall, hs'⟩ := hM.set i (pack value) hs
      refine ⟨s', by dsimp only; rw [hcall, Option.map_some, hpush], ?_⟩
      rw [List.map_set]
      exact hs'
  | size => exact ⟨s, congrArg (fun n => some (s, ListOut.size n)) hsize, hs⟩
  | iterate =>
    refine ⟨s, ?_, hs⟩
    show (M.iterate s).map _ = _
    rw [hM.iterate hs (hiterate rfl), Option.map_some]
    rfl

end Call

/-! ## `arraylist` -/

theorem arrayIterate_spec {array : CelArray (Option MVal)} {vs : List TValue} (h : array.Holds (vs.map pack))
    (hvs : ∀ v ∈ vs, v.Scalar) : ∀ (fuel idx : ℕ), idx ≤ vs.length → vs.length - idx < fuel →
      arrayIterate array fuel idx = some (vs.drop idx)
  | 0, _, _, hfuel => by omega
  | fuel + 1, idx, hidx, hfuel => by
    have hsize : array.size = vs.length := by rw [h.size, List.length_map]
    have hfits := h.fits
    have hbound := h.bound
    unfold arrayIterate
    split_ifs with hend
    · rw [List.drop_eq_nil_of_le (by omega)]
    · have hlt : idx < vs.length := by omega
      obtain ⟨val, hpack, hpush⟩ := pack_of_scalar (hvs vs[idx] (List.getElem_mem hlt))
      rw [celArrayGet_holds h, List.getElem?_map, List.getElem?_eq_getElem hlt, Option.map_some, Option.getD_some,
        hpack, Option.join_some, Option.bind_some, u32_of_lt (by omega),
        arrayIterate_spec h hvs fuel (idx + 1) (by omega) (by omega), Option.map_some, hpush,
        ← List.drop_eq_getElem_cons hlt]

theorem arraylist_refines : arraylist.Refines CelArray.Holds CelArray.Grows (fun a => a.size < a.length)
    (fun a => 0 < a.size) where
  size h := h.size
  insert {s vs} idx v h hadds := by
    split_ifs with hidx
    · exact celArrayInsert_holds h (hadds hidx) hidx v
    · exact ⟨s, celArrayInsert_of_le h (by omega) v, h⟩
  addFirst v h hfirst hadds := celArrayInsert_holds h hadds (by rw [← h.size]; exact hfirst) v
  addLast v h hadds := celArrayAdd_holds h hadds v
  remove {s vs} idx h hdels := by
    by_cases hidx : idx < vs.length
    · rw [List.getElem?_eq_getElem hidx]
      exact celArrayDel_holds h hidx (hdels hidx)
    · refine ⟨s, ?_, ?_⟩
      · rw [List.getElem?_eq_none (by omega)]
        exact celArrayDel_of_le h (by omega)
      · rw [List.eraseIdx_of_length_le (by omega)]
        exact h
  removeFirst {s vs} h hdels := by
    cases vs with
    | nil => exact ⟨s, celArrayDel_of_le h (Nat.zero_le 0), h⟩
    | cons v vs => exact celArrayDel_holds h (Nat.succ_pos vs.length) (hdels (Nat.succ_pos vs.length))
  removeLast {s vs} h hdels := by
    have hsize := h.size
    have hfits := h.fits
    have hbound := h.bound
    rcases List.eq_nil_or_concat' vs with rfl | ⟨vs, v, rfl⟩
    · refine ⟨s, ?_, h⟩
      show celArrayDel s (u32 (s.size + (2 ^ 32 - 1))) = some (0, s)
      exact celArrayDel_of_le h (Nat.zero_le _)
    · rw [List.length_append, List.length_singleton] at hsize
      have hlast : u32 (s.size + (2 ^ 32 - 1)) = vs.length := by
        unfold u32
        omega
      have hidx : vs.length < (vs ++ [v]).length := by rw [List.length_append, List.length_singleton]; omega
      obtain ⟨s', hcall, hs'⟩ := celArrayDel_holds h hidx (hdels (by omega))
      refine ⟨s', ?_, ?_⟩
      · show celArrayDel s (u32 (s.size + (2 ^ 32 - 1))) = some _
        rw [hlast, hcall, List.getLast?_append, List.getElem_append_right (le_refl _)]
        simp
      · rw [List.dropLast_concat]
        rwa [List.eraseIdx_append_of_length_le (le_refl _), Nat.sub_self, List.eraseIdx_zero, List.tail_cons,
          List.append_nil] at hs'
  get idx h := celArrayGet_holds h idx
  set idx v h := celArraySet_holds h idx v
  iterate {s vs} h hvs := by
    have hsize : s.size = vs.length := by rw [h.size, List.length_map]
    exact arrayIterate_spec h hvs (s.size + 1) 0 (Nat.zero_le _) (by omega)

/-! ## `linklist` -/

theorem linkIterate_spec {link : Link (Option MVal)} : ∀ (ns : List (ℕ × Option MVal)) (vs : List TValue)
    (cur fuel : ℕ), (cur :: (ns.map Prod.fst ++ [link.tail])).IsChain (Linked link.heap) →
    (ns.map Prod.fst ++ [link.tail]).Nodup → (∀ x ∈ ns, valOf link.heap x.1 = some x.2) →
    ns.map Prod.snd = vs.map pack → (∀ v ∈ vs, v.Scalar) → ns.length < fuel →
      linkIterate link fuel cur = some vs
  | _, _, _, 0, _, _, _, _, _, hfuel => by omega
  | [], vs, cur, fuel + 1, hchain, _, _, hmap, _, _ => by
    rw [List.map_nil, List.nil_append, List.isChain_cons_cons] at hchain
    have hnil : vs = [] := List.map_eq_nil_iff.mp hmap.symm
    rw [linkIterate, hchain.1.1, Option.bind_some, if_pos (.inr rfl), hnil]
  | x :: ns, [], _, _, _, _, _, hmap, _, _ => by
    rw [List.map_cons, List.map_nil] at hmap
    cases hmap
  | x :: ns, v :: vs, cur, fuel + 1, hchain, hnodup, hval, hmap, hvs, hfuel => by
    rw [List.map_cons, List.cons_append, List.isChain_cons_cons] at hchain
    rw [List.map_cons, List.cons_append, List.nodup_cons] at hnodup
    rw [List.map_cons, List.map_cons, List.cons_eq_cons] at hmap
    have hx := hval x List.mem_cons_self
    have hne : ¬ (x.1 = 0 ∨ x.1 = link.tail) := by
      obtain ⟨c, hc, -⟩ := read_of_valOf hx
      rintro (h | h)
      · exact ne_zero_of_read hc h
      · exact hnodup.1 (by rw [h]; simp)
    obtain ⟨val, hpack, hpush⟩ := pack_of_scalar (hvs v List.mem_cons_self)
    rw [linkIterate, hchain.1.1, Option.bind_some, if_neg hne, hx, hmap.1, hpack, Option.join_some, Option.bind_some,
      linkIterate_spec ns vs x.1 fuel hchain.2 hnodup.2 (fun y hy => hval y (List.mem_cons_of_mem x hy)) hmap.2
        (fun w hw => hvs w (List.mem_cons_of_mem v hw)) (by rw [List.length_cons] at hfuel; omega),
      Option.map_some, hpush]

theorem eq_of_map_void {V : Type} {o : Option (Link V)} {l : Link V}
    (h : (o.map fun l => (l, (LinkOut.void : LinkOut V))) = some (l, .void)) : o = some l := by
  obtain ⟨l', ho, heq⟩ := Option.map_eq_some_iff.mp h
  rw [ho, (Prod.mk.inj heq).1]

theorem eq_of_map_ptr {V : Type} {o : Option (V × Link V)} {l : Link V} {v : V}
    (h : (o.map fun r => (r.2, LinkOut.ptr r.1)) = some (l, .ptr v)) : o = some (v, l) := by
  obtain ⟨r, ho, heq⟩ := Option.map_eq_some_iff.mp h
  rw [ho, ← (Prod.mk.inj heq).1, ← LinkOut.ptr.inj (Prod.mk.inj heq).2]

variable {malloc : Malloc (DNode (Option MVal))}

theorem linklist_refines (hmalloc : malloc.Total) : (linklist malloc).Refines Link.Holds
    (fun l => l.size + 1 < 2 ^ 32) (fun _ => True) (fun _ => True) where
  size {s vs} h := by
    obtain ⟨ns, hl, rfl, hlt⟩ := h
    show s.size = _
    rw [hl.2, u32_of_lt hlt, List.length_map]
  insert {s vs} idx v h hadds := by
    by_cases hidx : idx < vs.length
    · obtain ⟨l, hcall, hl⟩ := linkStep_refines hmalloc s vs (.insert idx v) h fun _ => hadds hidx
      exact ⟨l, eq_of_map_void hcall, hl⟩
    · rw [if_neg hidx]
      obtain ⟨ns, hns, rfl, hlt⟩ := h
      refine ⟨s, ?_, ns, hns, rfl, hlt⟩
      show celLinkInsert malloc s idx v = some s
      rw [List.length_map] at hidx
      rw [celLinkInsert, getNode_of_le hns hlt (by omega), Option.bind_some, if_neg (by simp)]
  addFirst {s vs} v h _ hadds := by
    obtain ⟨l, hcall, hl⟩ := linkStep_refines hmalloc s vs (.addFirst v) h fun _ => hadds
    exact ⟨l, eq_of_map_void hcall, hl⟩
  addLast {s vs} v h hadds := by
    obtain ⟨l, hcall, hl⟩ := linkStep_refines hmalloc s vs (.addLast v) h fun _ => hadds
    exact ⟨l, eq_of_map_void hcall, hl⟩
  remove {s vs} idx h _ := by
    obtain ⟨l, hcall, hl⟩ := linkStep_refines hmalloc s vs (.remove idx) h fun hadds => by cases hadds
    exact ⟨l, eq_of_map_ptr hcall, hl⟩
  removeFirst {s vs} h _ := by
    obtain ⟨l, hcall, hl⟩ := linkStep_refines hmalloc s vs .removeFirst h fun hadds => by cases hadds
    exact ⟨l, eq_of_map_ptr hcall, hl⟩
  removeLast {s vs} h _ := by
    obtain ⟨l, hcall, hl⟩ := linkStep_refines hmalloc s vs .removeLast h fun hadds => by cases hadds
    exact ⟨l, eq_of_map_ptr hcall, hl⟩
  get {s vs} idx h := by
    obtain ⟨l, hcall, -⟩ := linkStep_refines hmalloc s vs (.get idx) h fun hadds => by cases hadds
    obtain ⟨v, hcall, hs'⟩ := Option.map_eq_some_iff.mp hcall
    cases hs'
    exact hcall
  set {s vs} idx v h := by
    obtain ⟨l, hcall, hl⟩ := linkStep_refines hmalloc s vs (.set idx v) h fun hadds => by cases hadds
    exact ⟨l, eq_of_map_ptr hcall, hl⟩
  iterate {s vs} h hvs := by
    obtain ⟨ns, hns, hmap, -⟩ := h
    exact linkIterate_spec ns vs s.head _ hns.1.chain (List.nodup_cons.mp hns.1.nodup).2 hns.1.value hmap.symm hvs
      (Nat.lt_succ_of_le hns.1.length_le_card)

theorem luaLinklistNew_holds (hmalloc : malloc.Total) : ∃ link, luaLinklistNew malloc = some link ∧ link.Holds [] := by
  obtain ⟨link, hinit, hl⟩ := celLinkInit_spec hmalloc ⟨∅, 0, 0, 0⟩
  refine ⟨link, ?_, [], hl, rfl, Nat.two_pow_pos 32⟩
  rw [luaLinklistNew, hinit, Option.bind_some, if_neg (fun h => h rfl)]

/-! ## Histories -/

theorem ListCall.Needs.mono {size : ℕ} {adds dels first adds' dels' first' : Prop} {o : ListCall}
    (h : o.Needs size adds dels first) (hadds : adds → adds') (hdels : dels → dels') (hfirst : first → first') :
    o.Needs size adds' dels' first' := by
  cases o with
  | insert idx value => exact fun i hi hlt => hadds (h i hi hlt)
  | addFirst value => exact ⟨hfirst h.1, hadds h.2⟩
  | addLast value => exact hadds h
  | remove idx => exact fun i hi hlt => hdels (h i hi hlt)
  | removeFirst => exact fun hlt => hdels (h hlt)
  | removeLast => exact fun hlt => hdels (h hlt)
  | get idx => trivial
  | set idx value => trivial
  | size => trivial
  | iterate => trivial

theorem exec_agree (hmalloc : malloc.Total) : ∀ (calls : List ListCall) (array : CelArray (Option MVal))
    (link : Link (Option MVal)) (vs : List TValue), array.Holds (vs.map pack) → link.Holds (vs.map pack) →
    (∀ v ∈ vs, v.Scalar) → (∀ o ∈ calls, o.Scalar) →
    Guarded (luaListCall arraylist) (fun array o => o.Fits array) array calls →
    ∃ array' link', exec (luaListCall arraylist) array calls = some (array', (specExec luaListStep vs calls).2) ∧
      exec (luaListCall (linklist malloc)) link calls = some (link', (specExec luaListStep vs calls).2)
  | [], array, link, _, _, _, _, _, _ => ⟨array, link, rfl, rfl⟩
  | o :: calls, array, link, vs, ha, hl, hvs, hcalls, hfits => by
    have hsize : array.size = vs.length := by rw [ha.size, List.length_map]
    have ho := hcalls o List.mem_cons_self
    have hneeds : o.Needs vs.length array.Grows (array.size < array.length) (0 < array.size) := by
      rw [← hsize]
      exact hfits.1
    obtain ⟨array₁, hcall, ha₁⟩ := luaListCall_refines arraylist_refines ha (fun v hv => (hvs v hv).plain)
      (fun _ => hvs) hneeds
    have hadds : array.Grows → link.size + 1 < 2 ^ 32 := by
      intro hg
      have hlen : link.size = vs.length := by
        rw [← List.length_map (f := pack)]
        exact (linklist_refines hmalloc).size hl
      have hfull := ha.fits
      have hbound := ha.bound
      rcases Nat.lt_or_eq_of_le hfull with hlt | heq
      · omega
      · have := hg heq
        omega
    obtain ⟨link₁, hcall', hl₁⟩ := luaListCall_refines (linklist_refines hmalloc) hl
      (fun v hv => (hvs v hv).plain) (fun _ => hvs) (hneeds.mono hadds (fun _ => trivial) fun _ => trivial)
    obtain ⟨array₂, link₂, hrun, hrun'⟩ :=
      exec_agree hmalloc calls array₁ link₁ _ ha₁ hl₁ (luaListStep_forall hvs ho.value)
      (fun o' ho' => hcalls o' (List.mem_cons_of_mem o ho')) (hfits.2 _ hcall)
    refine ⟨array₂, link₂, ?_, ?_⟩
    · rw [exec_cons_of_step hcall, hrun]
      rfl
    · rw [exec_cons_of_step hcall', hrun']
      rfl

/-- **The two list modules give the same results**, those of a list, over every history of numbers and booleans
that stays clear of the array's defects. -/
theorem lists_agree (hmalloc : malloc.Total) (calls : List ListCall) (hscalar : ∀ o ∈ calls, o.Scalar)
    (hfits : Guarded (luaListCall arraylist) (fun array o => o.Fits array) luaArraylistNew calls) :
    ∃ link array' link' outs, luaLinklistNew malloc = some link ∧
      exec (luaListCall arraylist) luaArraylistNew calls = some (array', outs) ∧
      exec (luaListCall (linklist malloc)) link calls = some (link', outs) ∧
      outs = (specExec luaListStep [] calls).2 := by
  obtain ⟨link, hnew, hl⟩ := luaLinklistNew_holds hmalloc
  obtain ⟨array', link', hrun, hrun'⟩ := exec_agree hmalloc calls luaArraylistNew link []
    (celArrayInit_holds (by decide)) hl (fun v hv => absurd hv List.not_mem_nil) hscalar hfits
  exact ⟨link, array', link', _, hnew, hrun, hrun', rfl⟩

/-- Negative indices, a removal and an iteration. -/
theorem lists_agree_run : ∃ link array' link' outs, luaLinklistNew Malloc.bump = some link ∧
    exec (luaListCall arraylist) luaArraylistNew [.addLast (.integer 5), .addFirst (.boolean true), .get (-1),
      .get 0, .remove (-2), .iterate] = some (array', outs) ∧
    exec (luaListCall (linklist Malloc.bump)) link [.addLast (.integer 5), .addFirst (.boolean true), .get (-1),
      .get 0, .remove (-2), .iterate] = some (link', outs) ∧
    outs = [.void, .void, .value (.integer 5), .argError, .value (.boolean true), .values [.integer 5]] := by
  have hfits : Guarded (luaListCall arraylist) (fun array o => o.Fits array) luaArraylistNew
      [.addLast (.integer 5), .addFirst (.boolean true), .get (-1), .get 0, .remove (-2), .iterate] := by
    refine guarded_cons (fun h => absurd h (by decide)) rfl ?_
    refine guarded_cons ⟨by decide, fun h => absurd h (by decide)⟩ rfl ?_
    refine guarded_cons trivial rfl (guarded_cons trivial rfl ?_)
    exact guarded_cons (fun _ _ _ => by decide) rfl (guarded_cons trivial rfl (guarded_nil _))
  exact lists_agree Malloc.bump_total [.addLast (.integer 5), .addFirst (.boolean true), .get (-1), .get 0,
    .remove (-2), .iterate] (by decide) hfits

/-- `addFirst` on an empty array list drops the value. -/
theorem not_lists_agree : ¬ ∀ calls : List ListCall, (∀ o ∈ calls, o.Scalar) →
    ∃ link array' link' outs, luaLinklistNew Malloc.bump = some link ∧
      exec (luaListCall arraylist) luaArraylistNew calls = some (array', outs) ∧
      exec (luaListCall (linklist Malloc.bump)) link calls = some (link', outs) := by
  intro hall
  obtain ⟨link, array', link', outs, hnew, harray, hlink⟩ := hall [.addFirst (.integer 1), .size] (by decide)
  have houts : outs = [.void, .size 0] := (Prod.mk.inj (Option.some.inj harray)).2.symm
  have hl : link.Holds ([].map pack) := by
    obtain ⟨l, hnew', hl⟩ := luaLinklistNew_holds Malloc.bump_total
    rw [hnew, Option.some.injEq] at hnew'
    rw [hnew']
    exact hl
  have hroom : link.size + 1 < 2 ^ 32 := by
    have hsize : link.size = 0 := (linklist_refines Malloc.bump_total).size hl
    omega
  obtain ⟨link₁, hcall, hl₁⟩ := luaListCall_refines (linklist_refines Malloc.bump_total)
    (show link.Holds (([] : List TValue).map pack) from hl) (fun v hv => absurd hv List.not_mem_nil)
    (o := .addFirst (.integer 1)) nofun ⟨trivial, hroom⟩
  have hsize : link₁.size = 1 := (linklist_refines Malloc.bump_total).size hl₁
  rw [exec_cons_of_step hcall, exec_cons_of_step (show luaListCall (linklist Malloc.bump) link₁ .size =
    some (link₁, .size link₁.size) from rfl), hsize, houts] at hlink
  cases hlink

end Sarah
