import SarahClient.Node.Id
import SarahClient.Network
import SarahClient.Link.Memory

/-!
# The hardware address in a node id (`sarah_gen_node_id` of `node.c`)

A write outside `ifr_name` is `none`. Allocations succeed.

* `sarahGetHardwareAddr`, `genNodeIdLoop`, `sarahGenNodeId`: the code;
* `genNodeIdLoop_spec`: the loop takes the devices one by one; `sarahGenNodeId_eq`;
* `EmbedsAddress`: what the id should tell;
* **`embedsAddress_iff`**: when it does.
-/

namespace Sarah

open Heap List

/-- What `socket` and `ioctl(SIOCGIFHWADDR)` answer to one query. -/
structure HardwareQuery where
  socket : Bool
  ioctl : Option Mac

/-- `sarah_get_hardware_addr`: its code, and the array `mac`. `ifr_name` has 16 bytes. -/
def sarahGetHardwareAddr (query : HardwareQuery) (mac : Mac) (device : List UInt8) : Option (ℤ × Mac) :=
  if query.socket = false then some (1, mac)
  else if 16 ≤ device.length then none
  else
    match query.ioctl with
    | none => some (0, mac) -- `goto failed` comes before `ret_code = 1`
    | some addr => some (0, addr)

/-- One round of the loop: `hd_addr` and `hd_addr_status`. -/
def genNodeIdRound (query : HardwareQuery) (device : List UInt8) (st : Mac × ℤ) : Option (Mac × ℤ) :=
  if device = lit "lo" then some st
  else if st.2 = 1 then some st
  else (sarahGetHardwareAddr query st.1 device).map fun r => (r.2, if r.1 = 0 then 1 else st.2)

/-- The loop of `sarah_gen_node_id` from the device `i` on; `queries` answers for each device. -/
def genNodeIdLoop (queries : ℕ → HardwareQuery) : ℕ → ℕ → Mac × ℤ → Link (Option NetStat) →
    Option ((Mac × ℤ) × Link (Option NetStat))
  | 0, _, _, _ => none
  | fuel + 1, i, st, list =>
    (celLinkRemoveFirst list).bind fun r =>
      match r.1 with
      | none => some (st, r.2)
      | some net => (genNodeIdRound (queries i) net.device st).bind fun st => genNodeIdLoop queries fuel (i + 1) st r.2

/-- The auto mode switch. -/
def idOf (draws : IdDraws) (st : Mac × ℤ) : List UInt8 :=
  if st.2 = 1 then genTsRmmacNodeId draws st.1 else genTsRandomNodeId draws

/-- `sarah_gen_node_id`: the bytes written to `buff`. The live cells bound the length of the loop. -/
def sarahGenNodeId (malloc : Malloc (DNode (Option NetStat))) (hardwareAddr : List UInt8 → Option (List UInt8))
    (file : Option (List UInt8)) (queries : ℕ → HardwareQuery) (draws : IdDraws) : Option (List UInt8) :=
  (celLinkInit malloc ⟨∅, 0, 0, 0⟩).bind fun list => (sarahGetNetStat malloc hardwareAddr file list.2).bind fun list =>
    (genNodeIdLoop queries (list.2.heap.keys.card + 1) 0 (fun _ => 0, 0) list.2).bind fun r =>
      (celLinkDestroy false r.2).map fun _ => idOf draws r.1

/-! ## The devices -/

/-- The names of the devices that `/proc/net/dev` lists. -/
def netDevices (file : Option (List UInt8)) : List (List UInt8) :=
  ((file.elim [] (Stdio.fgetsAll 256)).drop 2).map fun line => (netStatOf (fun _ => none) line).device

/-- The first device other than `lo` whose query satisfies `p`; devices are counted from `i` on. -/
def firstDevice (p : HardwareQuery → Bool) (queries : ℕ → HardwareQuery) : ℕ → List (List UInt8) → Option ℕ
  | _, [] => none
  | i, device :: devices =>
    if device ≠ lit "lo" ∧ p (queries i) = true then some i else firstDevice p queries (i + 1) devices

section First

variable {p q : HardwareQuery → Bool} {queries : ℕ → HardwareQuery} {j : ℕ}

theorem firstDevice_satisfies {devices : List (List UInt8)} : ∀ {i : ℕ}, firstDevice p queries i devices = some j →
    p (queries j) = true := by
  induction devices with
  | nil => exact fun h => by cases h
  | cons device devices ih =>
    intro i h
    rw [firstDevice] at h
    split_ifs at h with hfirst
    · cases h
      exact hfirst.2
    · exact ih h

variable (hpq : ∀ query, p query = true → q query = true)
include hpq

theorem firstDevice_of_satisfies {devices : List (List UInt8)} (hj : p (queries j) = true) : ∀ {i : ℕ},
    firstDevice q queries i devices = some j → firstDevice p queries i devices = some j := by
  induction devices with
  | nil => exact fun h => h
  | cons device devices ih =>
    intro i h
    rw [firstDevice] at h ⊢
    split_ifs at h with hfirst
    · cases h
      exact if_pos ⟨hfirst.1, hj⟩
    · rw [if_neg fun hp => hfirst ⟨hp.1, hpq _ hp.2⟩]
      exact ih h

theorem firstDevice_none {devices : List (List UInt8)} : ∀ {i : ℕ},
    firstDevice q queries i devices = none → firstDevice p queries i devices = none := by
  induction devices with
  | nil => exact fun _ => rfl
  | cons device devices ih =>
    intro i h
    rw [firstDevice] at h ⊢
    split_ifs at h with hfirst
    rw [if_neg fun hp => hfirst ⟨hp.1, hpq _ hp.2⟩]
    exact ih h

end First

/-! ## The loop -/

section Loop

variable (queries : ℕ → HardwareQuery)

/-- One round for a device whose name fits. -/
def addressRound (query : HardwareQuery) (device : List UInt8) (st : Mac × ℤ) : Mac × ℤ :=
  if device = lit "lo" ∨ st.2 = 1 ∨ query.socket = false then st else (query.ioctl.getD st.1, 1)

/-- The rounds over all devices. -/
def addressRounds : ℕ → Mac × ℤ → List (List UInt8) → Mac × ℤ
  | _, st, [] => st
  | i, st, device :: devices => addressRounds (i + 1) (addressRound (queries i) device st) devices

theorem genNodeIdRound_of_fits (query : HardwareQuery) {device : List UInt8} (h : device.length < 16) (st : Mac × ℤ) :
    genNodeIdRound query device st = some (addressRound query device st) := by
  unfold genNodeIdRound addressRound sarahGetHardwareAddr
  by_cases hlo : device = lit "lo"
  · rw [if_pos hlo, if_pos (.inl hlo)]
  · by_cases hstatus : st.2 = 1
    · rw [if_neg hlo, if_pos hstatus, if_pos (.inr (.inl hstatus))]
    · rw [if_neg hlo, if_neg hstatus]
      by_cases hsocket : query.socket = false
      · rw [if_pos hsocket, if_pos (.inr (.inr hsocket))]
        rfl
      · rw [if_neg hsocket, if_neg (Nat.not_le.mpr h), if_neg (by simp [hlo, hstatus, hsocket])]
        cases query.ioctl <;> rfl

theorem addressRounds_of_found (devices : List (List UInt8)) : ∀ (i : ℕ) (st : Mac × ℤ), st.2 = 1 →
    addressRounds queries i st devices = st := by
  induction devices with
  | nil => exact fun _ _ _ => rfl
  | cons device devices ih =>
    intro i st h
    rw [addressRounds, addressRound, if_pos (.inr (.inl h)), ih _ _ h]

/-- What the loop makes of the devices: the first one with a socket ends the search. -/
def foundAddress (i : ℕ) (devices : List (List UInt8)) : Mac × ℤ :=
  match firstDevice HardwareQuery.socket queries i devices with
  | none => (fun _ => 0, 0)
  | some j => ((queries j).ioctl.getD fun _ => 0, 1)

theorem addressRounds_eq (devices : List (List UInt8)) : ∀ i : ℕ,
    addressRounds queries i (fun _ => 0, 0) devices = foundAddress queries i devices := by
  induction devices with
  | nil => exact fun _ => rfl
  | cons device devices ih =>
    intro i
    rw [addressRounds, addressRound, foundAddress, firstDevice]
    by_cases h : device ≠ lit "lo" ∧ (queries i).socket = true
    · rw [if_pos h, if_neg (by simp [h.1, h.2])]
      exact addressRounds_of_found queries devices _ _ rfl
    · have hskip : device = lit "lo" ∨ (0 : ℤ) = 1 ∨ (queries i).socket = false := by
        by_cases hlo : device = lit "lo"
        · exact .inl hlo
        · exact .inr (.inr (Bool.eq_false_iff.mpr fun hs => h ⟨hlo, hs⟩))
      rw [if_neg h, if_pos hskip, ih, foundAddress]

variable {queries} {list : Link (Option NetStat)} {xs : List NetStat}

/-- The counter of the list runs out before its nodes do, from `2 ^ 32` nodes on. -/
theorem removeFirst_of_zero (h : list.Lists xs) (hzero : u32 xs.length = 0) :
    celLinkRemoveFirst list = some (none, list) := by
  obtain ⟨ns, hns, hxs⟩ := h
  have hlen : ns.length = xs.length := by
    have := congrArg length hxs
    rwa [length_map, length_map] at this
  exact if_pos (by rw [hns.2, hlen, hzero])

theorem removeFirst_of_cons {x : NetStat} (h : list.Lists (x :: xs)) (hne : u32 (xs.length + 1) ≠ 0) :
    ∃ l, celLinkRemoveFirst list = some (some x, l) ∧ l.Lists xs := by
  obtain ⟨ns, hns, hxs⟩ := h
  obtain _ | ⟨⟨o, v⟩, ns⟩ := ns
  · cases hxs
  · rw [map_cons, map_cons, cons.injEq] at hxs
    obtain ⟨rfl, hxs⟩ := hxs
    have hlen : ns.length = xs.length := by
      have := congrArg length hxs
      rwa [length_map, length_map] at this
    have hchain := hns.1.chain
    rw [map_cons, cons_append, isChain_cons_cons] at hchain
    obtain ⟨l, hremove, hl⟩ := removeNode_spec (show list.Nodes ([] ++ (o, some x) :: ns) from hns)
    refine ⟨l, ?_, ns, hl, hxs⟩
    rw [celLinkRemoveFirst, if_neg (by rw [hns.2, length_cons, hlen]; exact hne), hchain.1.1, Option.bind_some, hremove]

theorem genNodeIdLoop_spec (queries : ℕ → HardwareQuery) (k : ℕ) :
    ∀ {xs : List NetStat} {list : Link (Option NetStat)} {fuel : ℕ} (i : ℕ) (st : Mac × ℤ),
    list.Lists xs → u32 xs.length = k → k < fuel → (∀ x ∈ xs, x.device.length < 16) →
    ∃ l, genNodeIdLoop queries fuel i st list = some (addressRounds queries i st ((xs.take k).map NetStat.device), l) ∧
      l.Lists (xs.drop k) := by
  induction k with
  | zero =>
    intro xs list fuel i st h hk hfuel _
    obtain ⟨fuel, rfl⟩ : ∃ m, fuel = m + 1 := ⟨fuel - 1, by omega⟩
    exact ⟨list, by rw [genNodeIdLoop, removeFirst_of_zero h hk]; rfl, h⟩
  | succ k ih =>
    intro xs list fuel i st h hk hfuel hfits
    obtain ⟨fuel, rfl⟩ : ∃ m, fuel = m + 1 := ⟨fuel - 1, by omega⟩
    obtain _ | ⟨x, xs⟩ := xs
    · cases hk
    · rw [length_cons] at hk
      obtain ⟨l, hremove, hl⟩ := removeFirst_of_cons h (by omega)
      have hk' : u32 xs.length = k := by
        unfold u32 at hk ⊢
        omega
      obtain ⟨l', hloop, hl'⟩ := ih (i + 1) (addressRound (queries i) x.device st) hl hk' (Nat.lt_of_succ_lt_succ hfuel)
        fun y hy => hfits y (mem_cons_of_mem x hy)
      refine ⟨l', ?_, hl'⟩
      rw [genNodeIdLoop, hremove, Option.bind_some]
      dsimp only
      rw [genNodeIdRound_of_fits _ (hfits x mem_cons_self), Option.bind_some, hloop]
      rfl

end Loop

/-! ## The id -/

theorem destroy_lists {list : Link (Option NetStat)} {xs : List NetStat} (h : list.Lists xs) :
    (celLinkDestroy false list).isSome ↔ xs = [] := by
  obtain ⟨ns, hns, hxs⟩ := h
  have hnil : ns = [] ↔ xs = [] := by
    rw [← map_eq_nil_iff (f := Prod.snd), hxs, map_eq_nil_iff]
  rw [← hnil]
  constructor
  · intro hsome
    cases ns with
    | nil => rfl
    | cons x ns =>
      rw [celLinkDestroy_cons hns.1] at hsome
      cases hsome
  · rintro rfl
    obtain ⟨l, hrun, -⟩ := celLinkDestroy_nil hns.1 false
    rw [hrun]
    rfl

/-- **The id** of a list of devices; the list is not emptied, and its clean-up fails, from `2 ^ 32` devices on. -/
theorem sarahGenNodeId_eq {malloc : Malloc (DNode (Option NetStat))} (hmalloc : malloc.Total)
    (hardwareAddr : List UInt8 → Option (List UInt8)) (file : Option (List UInt8)) (queries : ℕ → HardwareQuery)
    (draws : IdDraws) (hfits : ∀ device ∈ netDevices file, device.length < 16) :
    sarahGenNodeId malloc hardwareAddr file queries draws =
      if (netDevices file).length < 2 ^ 32 then
        some (idOf draws (foundAddress queries 0 (netDevices file))) else none := by
  obtain ⟨l₀, hinit, hl₀⟩ := celLinkInit_spec (V := Option NetStat) hmalloc ⟨∅, 0, 0, 0⟩
  obtain ⟨code, l₁, hstat, hl₁⟩ := sarahGetNetStat_lists hmalloc hardwareAddr file
    (show l₀.Lists [] from ⟨[], hl₀, rfl⟩)
  rw [nil_append] at hl₁
  have hdevices : (((file.elim [] (Stdio.fgetsAll 256)).drop 2).map (netStatOf hardwareAddr)).map NetStat.device =
      netDevices file := by
    rw [map_map, netDevices]
    rfl
  generalize ((file.elim [] (Stdio.fgetsAll 256)).drop 2).map (netStatOf hardwareAddr) = xs at hl₁ hdevices
  have hlen : (netDevices file).length = xs.length := by rw [← hdevices, length_map]
  have hcard : u32 xs.length < l₁.heap.keys.card + 1 :=
    Nat.lt_succ_of_le ((Nat.mod_le _ _).trans hl₁.forward.1)
  obtain ⟨l₂, hloop, hl₂⟩ := genNodeIdLoop_spec queries (u32 xs.length) 0 (fun _ => 0, 0) hl₁ rfl hcard
    fun x hx => hfits _ (hdevices ▸ mem_map_of_mem hx)
  rw [sarahGenNodeId, hinit, Option.bind_some, hstat, Option.bind_some]
  dsimp only
  rw [hloop, Option.bind_some, hlen]
  have hdestroy := destroy_lists hl₂
  rw [drop_eq_nil_iff] at hdestroy
  split_ifs with hlt
  · rw [u32_of_lt hlt, take_length, hdevices, addressRounds_eq]
    rw [u32_of_lt hlt] at hdestroy
    obtain ⟨l₃, hl₃⟩ := Option.isSome_iff_exists.mp (hdestroy.mpr le_rfl)
    rw [hl₃, Option.map_some]
  · have hnone : celLinkDestroy false l₂ = none := by
      rw [← Option.not_isSome_iff_eq_none, hdestroy]
      have := u32_lt xs.length
      omega
    rw [hnone, Option.map_none]

/-! ## What the id tells -/

/-- The mark in front of the address. -/
def idMark (id : List UInt8) : List UInt8 := (id.drop 25).take 2

/-- The address in the id. -/
def idAddress (id : List UInt8) : List UInt8 := (id.drop 28).take 12

/-- The query gives an address. -/
def HardwareQuery.succeeds (query : HardwareQuery) : Bool := query.socket && query.ioctl.isSome

/-- **The property** of a run: the id has the address of the first device whose query succeeds, and the mark of an
address; or the mark of a random id, where no query does. -/
structure EmbedsAddress (devices : List (List UInt8)) (queries : ℕ → HardwareQuery)
    (run : Option (List UInt8)) : Prop where
  address : ∀ j mac, firstDevice HardwareQuery.succeeds queries 0 devices = some j → (queries j).ioctl = some mac →
    ∃ id, run = some id ∧ idAddress id = macText mac ∧ idMark id = lit "01"
  random : firstDevice HardwareQuery.succeeds queries 0 devices = none → ∃ id, run = some id ∧ idMark id = lit "00"

theorem padLeft_hex_succ {k : ℕ} (hk : 0 < k) (n : ℕ) :
    padLeft 48 (k + 1) (hex n) = padLeft 48 k (hex (n / 16)) ++ [hexDigit (n % 16)] := by
  rcases Nat.lt_or_ge n 16 with h | h
  · rw [Nat.div_eq_of_lt h, Nat.mod_eq_of_lt h, hex_of_lt h, hex_of_lt (show 0 < 16 by decide), padLeft, padLeft,
      length_singleton, length_singleton, Nat.add_sub_cancel]
    obtain ⟨k, rfl⟩ : ∃ m, k = m + 1 := ⟨k - 1, by omega⟩
    rw [Nat.add_sub_cancel, replicate_succ']
    rfl
  · rw [hex_of_le h, padLeft, padLeft, length_append, length_singleton, Nat.add_sub_add_right, append_assoc]

theorem idStart_split (draws : IdDraws) {mark : ℕ} (h : mark < 16) :
    ∃ start, start.length = 25 ∧ idStart draws mark = start ++ [48, hexDigit mark] ++ lit "-" := by
  have hgroup : padLeft 48 4 (hex ((draws.rand 1 % 0xFF) <<< 8 ||| mark)) =
      padLeft 48 2 (hex (draws.rand 1 % 0xFF)) ++ [48, hexDigit mark] := by
    have hadd := Nat.shiftLeft_add_eq_or_of_lt (show mark < 2 ^ 8 by omega) (draws.rand 1 % 0xFF)
    rw [← hadd, Nat.shiftLeft_eq, padLeft_hex_succ (by decide), padLeft_hex_succ (by decide), append_assoc]
    have h₁ : (draws.rand 1 % 0xFF * 2 ^ 8 + mark) / 16 / 16 = draws.rand 1 % 0xFF := by omega
    have h₂ : (draws.rand 1 % 0xFF * 2 ^ 8 + mark) / 16 % 16 = 0 := by omega
    have h₃ : (draws.rand 1 % 0xFF * 2 ^ 8 + mark) % 16 = mark := by omega
    rw [h₁, h₂, h₃]
    rfl
  have hbyte : (padLeft 48 2 (hex (draws.rand 1 % 0xFF))).length = 2 :=
    length_padded (by decide) (by have := Nat.mod_lt (draws.rand 1) (show 0xFF > 0 by decide); omega)
  refine ⟨_, ?_, by rw [idStart, hgroup, ← append_assoc]⟩
  simp only [length_append, length_sec, length_usec, length_rand, hbyte]
  rfl

theorem idMark_idStart (draws : IdDraws) {mark : ℕ} (h : mark < 16) (rest : List UInt8) :
    idMark (idStart draws mark ++ rest) = [48, hexDigit mark] := by
  obtain ⟨start, hlen, heq⟩ := idStart_split draws h
  rw [idMark, heq, append_assoc, append_assoc, ← hlen, drop_left]
  rfl

theorem idMark_random (draws : IdDraws) : idMark (genTsRandomNodeId draws) = lit "00" := by
  simp only [genTsRandomNodeId, append_assoc]
  exact idMark_idStart draws (by decide) _

theorem idMark_rmmac (draws : IdDraws) (mac : Mac) : idMark (genTsRmmacNodeId draws mac) = lit "01" := by
  simp only [genTsRmmacNodeId, append_assoc]
  exact idMark_idStart draws (by decide) _

theorem idAddress_rmmac (draws : IdDraws) (mac : Mac) : idAddress (genTsRmmacNodeId draws mac) = macText mac := by
  rw [idAddress, genTsRmmacNodeId, append_assoc, ← length_idStart draws (show 0x01 < 2 ^ 8 by decide), drop_left,
    ← length_macText mac, take_left]

theorem flatMap_inj {A : Type} {k : ℕ} {f g : A → List UInt8} (hf : ∀ a, (f a).length = k)
    (hg : ∀ a, (g a).length = k) :
    ∀ {l : List A}, l.flatMap f = l.flatMap g → ∀ a ∈ l, f a = g a
  | [], _, _, ha => by cases ha
  | x :: l, h, a, ha => by
    rw [flatMap_cons, flatMap_cons] at h
    obtain ⟨hx, hl⟩ := append_inj h (by rw [hf, hg])
    rcases mem_cons.mp ha with rfl | ha
    · exact hx
    · exact flatMap_inj hf hg hl a ha

theorem macText_inj {mac mac' : Mac} (h : macText mac = macText mac') : mac = mac' := by
  have hbyte : ∀ (mac : Mac) i, (padLeft 48 2 (hex (mac i).toNat)).length = 2 := fun mac i =>
    length_padded (by decide) (by have := (mac i).toNat_lt; omega)
  funext i
  have hi := flatMap_inj (hbyte mac) (hbyte mac') h i (mem_finRange i)
  exact UInt8.toNat_inj.mp (padded_inj (by decide) hi)

/-- Where the search goes well: the list is emptied, and the first device with a socket has an address, or the first
one with an address has the zero address that is embedded. -/
def SearchGoesWell (devices : List (List UInt8)) (queries : ℕ → HardwareQuery) : Prop :=
  devices.length < 2 ^ 32 ∧ ∀ j, firstDevice HardwareQuery.socket queries 0 devices = some j →
    (queries j).ioctl ≠ none ∨
      ∃ i, firstDevice HardwareQuery.succeeds queries 0 devices = some i ∧ (queries i).ioctl = some fun _ => 0

theorem socket_of_succeeds (query : HardwareQuery) (h : query.succeeds = true) : query.socket = true :=
  (Bool.and_eq_true_iff.mp h).1

theorem exists_ioctl {query : HardwareQuery} (h : query.succeeds = true) : ∃ mac, query.ioctl = some mac :=
  Option.isSome_iff_exists.mp (Bool.and_eq_true_iff.mp h).2

theorem not_embedsAddress_none (devices : List (List UInt8)) (queries : ℕ → HardwareQuery) :
    ¬ EmbedsAddress devices queries none := by
  rintro ⟨haddress, hrandom⟩
  cases hfirst : firstDevice HardwareQuery.succeeds queries 0 devices with
  | none =>
    obtain ⟨id, hid, -⟩ := hrandom hfirst
    cases hid
  | some j =>
    obtain ⟨mac, hmac⟩ := exists_ioctl (firstDevice_satisfies hfirst)
    obtain ⟨id, hid, -⟩ := haddress j mac hfirst hmac
    cases hid

/-- An id with an address embedded is right when the first device that answers has this address. -/
theorem embedsAddress_rmmac_iff (devices : List (List UInt8)) (queries : ℕ → HardwareQuery) (draws : IdDraws)
    (mac : Mac) :
    EmbedsAddress devices queries (some (genTsRmmacNodeId draws mac)) ↔
      ∃ i, firstDevice HardwareQuery.succeeds queries 0 devices = some i ∧ (queries i).ioctl = some mac := by
  constructor
  · rintro ⟨haddress, hrandom⟩
    cases hfirst : firstDevice HardwareQuery.succeeds queries 0 devices with
    | none =>
      obtain ⟨id, hid, hmark⟩ := hrandom hfirst
      rw [← Option.some.inj hid, idMark_rmmac] at hmark
      exact absurd hmark (by decide)
    | some i =>
      obtain ⟨mac', hmac⟩ := exists_ioctl (firstDevice_satisfies hfirst)
      obtain ⟨id, hid, haddr, -⟩ := haddress i mac' hfirst hmac
      rw [← Option.some.inj hid, idAddress_rmmac] at haddr
      exact ⟨i, rfl, hmac.trans (congrArg some (macText_inj haddr).symm)⟩
  · rintro ⟨i, hi, hmac⟩
    refine ⟨fun i' mac' hi' hmac' => ?_, fun hnone => ?_⟩
    · rw [hi] at hi'
      cases hi'
      rw [hmac] at hmac'
      cases hmac'
      exact ⟨_, rfl, idAddress_rmmac draws mac, idMark_rmmac draws mac⟩
    · rw [hi] at hnone
      cases hnone

/-- **When the id tells the address**, for names that fit `ifr_name`, as those of network devices do. -/
theorem embedsAddress_iff {malloc : Malloc (DNode (Option NetStat))} (hmalloc : malloc.Total)
    (hardwareAddr : List UInt8 → Option (List UInt8)) {file : Option (List UInt8)}
    (hfits : ∀ device ∈ netDevices file, device.length < 16) (queries : ℕ → HardwareQuery) (draws : IdDraws) :
    EmbedsAddress (netDevices file) queries (sarahGenNodeId malloc hardwareAddr file queries draws) ↔
      SearchGoesWell (netDevices file) queries := by
  rw [sarahGenNodeId_eq hmalloc hardwareAddr file queries draws hfits]
  generalize netDevices file = devices
  rw [SearchGoesWell]
  split_ifs with hlt
  swap
  · exact iff_of_false (not_embedsAddress_none devices queries) fun h => hlt h.1
  rw [and_iff_right hlt]
  cases hfirst : firstDevice HardwareQuery.socket queries 0 devices with
  | none =>
    have hnone := firstDevice_none socket_of_succeeds hfirst
    rw [foundAddress, hfirst]
    refine iff_of_true ⟨fun j mac hj => ?_, fun _ => ⟨_, rfl, idMark_random draws⟩⟩ nofun
    rw [hnone] at hj
    cases hj
  | some j =>
    have hid : idOf draws (foundAddress queries 0 devices) =
        genTsRmmacNodeId draws ((queries j).ioctl.getD fun _ => 0) := by
      rw [foundAddress, hfirst]
      rfl
    rw [hid, embedsAddress_rmmac_iff]
    constructor
    · rintro ⟨i, hi, hmac⟩ j' hj'
      cases hj'
      by_cases hioctl : (queries j).ioctl = none
      · -- the zeros of `hd_addr` are embedded
        rw [hioctl] at hmac
        exact .inr ⟨i, hi, hmac⟩
      · exact .inl hioctl
    · intro hwell
      cases hioctl : (queries j).ioctl with
      | none =>
        rcases hwell j rfl with h | h
        · exact absurd hioctl h
        · exact h
      | some mac =>
        have hsucceeds : (queries j).succeeds = true := by
          rw [HardwareQuery.succeeds, firstDevice_satisfies hfirst, hioctl]
          rfl
        exact ⟨j, firstDevice_of_satisfies socket_of_succeeds hsucceeds hfirst, hioctl⟩

/-- A listing of `lo` and one card. -/
def twoDevices : List UInt8 := lit "Inter-|\n face |\n    lo:\n  eth0:\n"

theorem netDevices_two : netDevices (some twoDevices) = [lit "lo", lit "eth0"] := by decide +kernel

/-- A card that has an address. -/
theorem embedsAddress_iff_card : EmbedsAddress (netDevices (some twoDevices)) (fun _ => ⟨true, some fun _ => 7⟩)
    (sarahGenNodeId Malloc.bump (fun _ => none) (some twoDevices)
      (fun _ => ⟨true, some fun _ => 7⟩) ⟨0, 0, fun _ => 0⟩) :=
  (embedsAddress_iff Malloc.bump_total _ (by rw [netDevices_two]; decide) _ _).mpr
    ⟨by rw [netDevices_two]; decide, fun _ _ => .inl (Option.some_ne_none _)⟩

/-- A card without an address: the id tells that its address is zero. -/
theorem not_embedsAddress : ¬ ∀ (hardwareAddr : List UInt8 → Option (List UInt8)) (file : Option (List UInt8))
    (queries : ℕ → HardwareQuery) (draws : IdDraws), (∀ device ∈ netDevices file, device.length < 16) →
    EmbedsAddress (netDevices file) queries (sarahGenNodeId Malloc.bump hardwareAddr file queries draws) := by
  intro hall
  have hfits : ∀ device ∈ netDevices (some twoDevices), device.length < 16 := by
    rw [netDevices_two]
    decide
  have htells := hall (fun _ => none) (some twoDevices) (fun _ => ⟨true, none⟩) ⟨0, 0, fun _ => 0⟩ hfits
  rw [sarahGenNodeId_eq Malloc.bump_total _ _ _ _ hfits, netDevices_two] at htells
  obtain ⟨id, hid, hmark⟩ := htells.random rfl
  cases hid
  rw [show idOf _ _ = genTsRmmacNodeId ⟨0, 0, fun _ => 0⟩ fun _ => 0 from rfl, idMark_rmmac] at hmark
  exact absurd hmark (by decide)

end Sarah
