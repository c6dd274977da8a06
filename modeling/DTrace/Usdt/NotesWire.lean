import DTrace.Usdt.NotesTable

/-!
# Provider notes, written and read

The linker writes a `prov` note for each provider, with a fragment for each of its probes; the parser reads it back.

* `noteAddProbe`, `noteAddProvider` — the encoder;
* `provProbes_wire` — the fragments are read back;
* `roundTrip_iff` — the note is read back, if it is not so large that it is refused.
-/

namespace DTrace.Usdt

open Lib List Exec

/-! ## The encoder -/

/-- `DT_TYPE_NAMELEN`. -/
def typeNameLen : ℕ := 128

/-- `DTRACE_PROVNAMELEN`. -/
def provNameLen : ℕ := 64

/-- A probe as it is defined: the native types, and the translated ones with what they are mapped to. -/
structure ProbeDef where
  name : Bytes
  nargs : List Bytes
  xargs : List (Bytes × BitVec 8)
  name_ok : 0 ∉ name
  nargs_ok : ∀ t ∈ nargs, 0 ∉ t ∧ t.length < typeNameLen
  xargs_ok : ∀ x ∈ xargs, 0 ∉ x.1 ∧ x.1.length < typeNameLen
  nargc_le : nargs.length ≤ 255
  xargc_le : xargs.length ≤ 255

/-- `dtrace_attribute_t`. -/
structure Attr where
  name : BitVec 8
  data : BitVec 8
  cls : BitVec 8

/-- A provider as it is defined: `dtvd_name`, the attributes of `dtvd_attr`, and the probes in the order of
`dt_idhash_iter`. -/
structure ProviderDef where
  name : Bytes
  provider : Attr
  mod : Attr
  func : Attr
  probeName : Attr
  args : Attr
  probes : List ProbeDef
  name_ok : 0 ∉ name
  distinct : (probes.map ProbeDef.name).Nodup

def pad4 (bs : Bytes) : Bytes := bs ++ List.replicate (align4 bs.length - bs.length) 0

def noteStoreAttr (a : Attr) : BitVec 32 :=
  (a.name.setWidth 32 <<< 24) ||| (a.data.setWidth 32 <<< 16) ||| (a.cls.setWidth 32 <<< 8)

/-- What `note_add_probe` writes. -/
def ProbeDef.body (d : ProbeDef) : Bytes :=
  d.name ++ [0] ++ ([BitVec.ofNat 8 d.nargs.length] ++ (strs (d.nargs.map fun t => (t, [])) ++
    ([BitVec.ofNat 8 d.xargs.length] ++ xstrs d.xargs)))

/-- `note_add_probe`: a fragment of the note. -/
def noteAddProbe (d : ProbeDef) : Bytes := pad4 d.body

def ProviderDef.attrs (d : ProviderDef) : List (BitVec 32) :=
  [d.provider, d.mod, d.func, d.probeName, d.args].map noteStoreAttr

/-- The description of the note.  Each fragment has been put in front of the others. -/
def ProviderDef.desc (d : ProviderDef) : Bytes :=
  pad4 (d.name ++ [0]) ++ ((d.attrs.flatMap fun v => Bytes.ofNat 4 v.toNat) ++
    (Bytes.ofNat 4 d.probes.length ++ d.probes.reverse.flatMap noteAddProbe))

/-- The note: its header, its name and its description. -/
def ProviderDef.note (d : ProviderDef) : Bytes :=
  Bytes.ofNat 4 5 ++ (Bytes.ofNat 4 d.desc.length ++ (Bytes.ofNat 4 1 ++ (litProv ++ ([0, 0, 0] ++ d.desc))))

/-- `note_add_provider`: the note, if there is one. -/
def noteAddProvider (d : ProviderDef) : Except String (Option Bytes) :=
  if d.probes.length % 2 ^ 32 = 0 then .ok none
  else if provNameLen - 11 < d.name.length then .error "USDT provider name may not exceed %d characters: %s\n"
  else .ok (some d.note)

/-! ## What is to be read back -/

/-- A probe in the table of the provider. -/
def ProbeDef.parsed (d : ProbeDef) (prv mod : Bytes) : Probe :=
  { Probe.key prv mod none d.name 0 with
    nargc := d.nargs.length, xargc := d.xargs.length, nargs := d.nargs.flatMap (· ++ [0]),
    xargs := d.xargs.flatMap (·.1 ++ [0]), xmap := d.xargs.map Prod.snd }

/-- The provider is there, with its attributes and its probes. -/
def ProviderDef.Parsed (d : ProviderDef) (mod : Bytes) (s : St) : Prop :=
  ∃ pvp, s.prvmap.list = [pvp] ∧ pvp.name = d.name ∧ pvp.attrs = d.attrs ∧
    pvp.pmap.list.Perm (d.probes.map (·.parsed d.name mod))

section

variable {s : St} {w : Window} {p : ℕ} {ctx : Ctx} {prv : Bytes} {pmap : Htab Probe}

lemma length_pad4 (bs : Bytes) : (pad4 bs).length = align4 bs.length := by
  simp [pad4, align4]
  omega

lemma strs_native (ts : List Bytes) : strs (ts.map fun t => (t, [])) = ts.flatMap (· ++ [0]) := by
  rw [strs, flatMap_map]

lemma ProbeDef.length_body (d : ProbeDef) :
    d.body.length =
      d.name.length + 1 + 1 + (d.nargs.flatMap (· ++ [0])).length + 1 + (xstrs d.xargs).length := by
  simp only [ProbeDef.body, strs_native, length_append, length_singleton]
  omega

lemma toNat_count {n : ℕ} (hn : n ≤ 255) : (BitVec.ofNat 8 n).toNat = n := by
  rw [BitVec.toNat_ofNat]
  omega

lemma strarraySize_native {ts : List Bytes} (h : Holds w s p (ts.flatMap (· ++ [0]))) (h0 : ∀ t ∈ ts, 0 ∉ t) :
    strarraySize w 0 ts.length p s = (some (some (p + (ts.flatMap (· ++ [0])).length)), s) := by
  rw [← strs_native] at h
  have hends : ∀ t ∈ ts.map fun t => (t, ([] : Bytes)), 0 ∉ t.1 := forall_mem_map.2 h0
  have hskip : ∀ t ∈ ts.map fun t => (t, ([] : Bytes)), t.2.length = 0 := forall_mem_map.2 fun _ _ => rfl
  have hsize := strarraySize_holds h hends hskip
  rwa [length_map, strs_native] at hsize

lemma strarraySize_xlat {xs : List (Bytes × BitVec 8)} (h : Holds w s p (xstrs xs)) (h0 : ∀ x ∈ xs, 0 ∉ x.1) :
    strarraySize w 1 xs.length p s = (some (some (p + (xstrs xs).length)), s) := by
  have hends : ∀ t ∈ xs.map fun x => (x.1, [x.2]), 0 ∉ t.1 := forall_mem_map.2 h0
  have hskip : ∀ t ∈ xs.map fun x => (x.1, [x.2]), t.2.length = 1 := forall_mem_map.2 fun _ _ => rfl
  have hsize := strarraySize_holds h hends hskip
  rwa [length_map] at hsize

/-- What is read from a fragment is what was written. -/
lemma provProbe_wire (d : ProbeDef) (hp : p % 4 = 0) (h : Holds w s p d.body)
    (hnew : dtHtabLookup prbOps pmap (Probe.key prv ctx.mod none d.name 0) = none) :
    provProbe ctx prv w pmap p s = (some (d.parsed prv ctx.mod, p + d.body.length), s) := by
  have hlen := d.length_body
  have hhi := h.hi
  have halign : align4 p = p := align4_add hp 0
  have hrest := h.right
  rw [length_append, length_singleton, ← Nat.add_assoc, strs_native] at hrest
  rw [provProbe, halign, bind_some (readStr_holds h.left d.name_ok), if_neg (by omega), hnew, if_neg (by simp)]
  -- the native arguments
  set nargs := d.nargs.flatMap (· ++ [0]) with hnargsEq
  set q := p + d.name.length + 1 with hq
  have hnargs : Holds w s (q + 1) nargs := hrest.right.left
  rw [bind_some (readByte_holds hrest.left), toNat_count d.nargc_le,
    bind_some (strarraySize_native hnargs fun t ht => (d.nargs_ok t ht).1), ← hnargsEq]
  simp only [if_neg (show ¬w.hi < q + 1 + nargs.length by omega)]
  -- the translated ones
  set e := q + 1 + nargs.length with he
  have hxargc : Holds w s e [BitVec.ofNat 8 d.xargs.length] := hrest.right.right.left
  have hxargs : Holds w s (e + 1) (xstrs d.xargs) := hrest.right.right.right
  have hx0 : ∀ x ∈ d.xargs, 0 ∉ x.1 := fun x hx => (d.xargs_ok x hx).1
  have hfit : q + 1 + nargs.length ≤ s.mem.length := by
    have := hxargc.end_le (by simp)
    omega
  have hxlat := xlatArgs_holds hxargs hx0
  rw [show e + 1 + (xstrs d.xargs).length = p + d.body.length by omega] at hxlat
  rw [show e - (q + 1) = nargs.length by omega, bind_some (readBytes_holds hnargs hfit),
    bind_some (readByte_holds hxargc), toNat_count d.xargc_le, bind_some (strarraySize_xlat hxargs hx0)]
  exact bind_some hxlat

lemma provProbe_align (p : ℕ) : provProbe ctx prv w pmap p = provProbe ctx prv w pmap (align4 p) := by
  have halign : align4 (align4 p) = align4 p := align4_add (Nat.mul_mod_left _ 4) 0
  rw [provProbe, provProbe, halign]

def Fresh (pmap : Htab Probe) (ps : List ProbeDef) : Prop := ∀ d ∈ ps, ∀ q ∈ pmap.list, q.prb ≠ d.name

lemma provProbes_wire {ps : List ProbeDef} (hdefs : Defs prv ctx.mod pmap) (hfresh : Fresh pmap ps)
    (hnodup : (ps.map ProbeDef.name).Nodup) (h : Holds w s (align4 p) (ps.flatMap noteAddProbe)) :
    ∃ pmap', provProbes ctx prv w ps.length p pmap s = (some pmap', s) ∧
      pmap'.list.Perm (ps.map (·.parsed prv ctx.mod) ++ pmap.list) := by
  induction ps generalizing p pmap with
  | nil => exact ⟨pmap, rfl, .refl _⟩
  | cons d ps ih =>
    rw [flatMap_cons] at h
    rw [map_cons, nodup_cons] at hnodup
    have hbody : Holds w s (align4 p) d.body := h.left.left
    have hp : align4 p % 4 = 0 := Nat.mul_mod_left _ 4
    have hnext : align4 (align4 p + d.body.length) = align4 p + (noteAddProbe d).length := by
      rw [align4_add hp, noteAddProbe, length_pad4]
    have hnew : dtHtabLookup prbOps pmap (Probe.key prv ctx.mod none d.name 0) = none := by
      rw [hdefs.tidy.lookup_eq_none_iff]
      intro q hq hcmp
      simp only [prbOps, prbCmp, Bool.and_eq_true, decide_eq_true_eq] at hcmp
      exact absurd hcmp.1.2 (hfresh d mem_cons_self q hq)
    rw [length_cons, provProbes, provProbe_align, bind_some (provProbe_wire d hp hbody hnew)]
    -- the other fragments
    have hperm : (dtHtabInsert prbOps pmap (d.parsed prv ctx.mod)).list.Perm _ :=
      list_insert hdefs.tidy.pos (d.parsed prv ctx.mod)
    have hfresh' : Fresh (dtHtabInsert prbOps pmap (d.parsed prv ctx.mod)) ps := by
      intro e he q hq
      rcases mem_cons.1 (hperm.mem_iff.1 hq) with rfl | hq
      · intro heq
        refine hnodup.1 ?_
        rw [show d.name = e.name from heq]
        exact mem_map_of_mem he
      · exact hfresh e (mem_cons_of_mem d he) q hq
    obtain ⟨pmap', hrun, hlist⟩ := ih (hdefs.insert ⟨rfl, rfl, rfl, rfl⟩ (lookup_prb.trans hnew)) hfresh' hnodup.2
      (p := align4 p + d.body.length) (hnext ▸ h.right)
    exact ⟨pmap', hrun, hlist.trans ((hperm.append_left _).trans perm_middle)⟩

lemma ProviderDef.length_attrs (d : ProviderDef) : (d.attrs.flatMap fun v => Bytes.ofNat 4 v.toNat).length = 20 := by
  simp [ProviderDef.attrs]

lemma ProviderDef.length_desc (d : ProviderDef) :
    d.desc.length = align4 (d.name.length + 1) + 24 + (d.probes.reverse.flatMap noteAddProbe).length := by
  simp only [ProviderDef.desc, length_append, length_pad4, d.length_attrs, Bytes.length_ofNat,
    length_singleton]
  omega

lemma parseProvNote_wire (ctx : Ctx) (d : ProviderDef) {note : Note} (ha : note.desc % 4 = 0)
    (h : Holds ⟨note.desc, note.desc + note.descsz⟩ s note.desc d.desc)
    (hnew : dtHtabLookup prvOps s.prvmap (Provider.key d.name) = none) (hfew : d.probes.length < 2 ^ 32) :
    ∃ pmap s', parseProvNote ctx note s = (some (), s') ∧
      s'.prvmap = dtHtabInsert prvOps s.prvmap ⟨d.name, d.attrs, 0, pmap⟩ ∧
      pmap.list.Perm (d.probes.map (·.parsed d.name ctx.mod)) := by
  have hlen := d.length_desc
  have hhi := h.hi
  dsimp only at hhi
  set q := note.desc + align4 (d.name.length + 1) with hq
  have hqmod : align4 (q + 24) = q + 24 := by
    simp only [hq, align4]
    omega
  have hrest := h.right
  rw [length_pad4, length_append, length_singleton, ← hq] at hrest
  have hcount := hrest.right
  rw [d.length_attrs] at hcount
  have hprobes := hcount.right
  rw [Bytes.length_ofNat, Nat.add_assoc] at hprobes
  rw [parseProvNote, bind_some (readStr_holds h.left.left d.name_ok), if_neg (by dsimp only; omega),
    bind_some (show Exec.get s = (some s, s) from rfl), hnew, if_neg (by simp)]
  -- the attributes and the count
  have hattrs := readWords_holds hrest.left
  rw [show d.attrs.length = 5 from rfl] at hattrs
  have hprobec := readNat_holds hcount.left (ne_nil_of_length_pos (by simp)) (Bytes.length_ofNat 4 _)
  rw [Bytes.val_ofNat (by omega)] at hprobec
  rw [bind_some hattrs, bind_some hprobec]
  -- the fragments
  have hfresh : Fresh dtHtabCreate d.probes.reverse := by simp [Fresh]
  have hnodup : (d.probes.reverse.map ProbeDef.name).Nodup := by simpa using d.distinct
  obtain ⟨pmap, hrun, hlist⟩ := provProbes_wire (defs_create d.name ctx.mod) hfresh hnodup (p := q + 24) (hqmod.symm ▸ hprobes)
  rw [length_reverse] at hrun
  refine ⟨pmap, _, bind_some hrun, rfl, ?_⟩
  rw [list_create, append_nil, map_reverse] at hlist
  exact hlist.trans (reverse_perm _)

lemma strcmpLit_holds {a : ℕ} {lit : Bytes} (h : Holds w s a lit) : strcmpLit w a lit s = (some true, s) := by
  induction lit generalizing a with
  | nil => rfl
  | cons c cs ih =>
    obtain ⟨hc, hcs⟩ := h.cons
    rw [strcmpLit, bind_some (readByte_holds hc), if_pos rfl, ih hcs]

lemma ProviderDef.length_note (d : ProviderDef) : d.note.length = 20 + d.desc.length := by
  simp [ProviderDef.note, litProv]
  omega

lemma ProviderDef.desc_aligned (d : ProviderDef) : d.desc.length % 4 = 0 := by
  have hfrags : ∀ ps : List ProbeDef, (ps.flatMap noteAddProbe).length % 4 = 0 := by
    intro ps
    induction ps with
    | nil => rfl
    | cons e ps ih =>
      rw [flatMap_cons, length_append, noteAddProbe, length_pad4, align4]
      omega
  have hrest := hfrags d.probes.reverse
  rw [d.length_desc, align4]
  omega

lemma getNote_wire (d : ProviderDef) (hsize : ctx.size = d.note.length) (hlt : d.desc.length < 2 ^ 32)
    (h : Holds ⟨0, ctx.size⟩ s 0 d.note) : getNote ctx 0 s = (some (⟨1, 12, 20, d.desc.length⟩, 0), s) := by
  have hlen := d.length_desc
  have haligned := d.desc_aligned
  rw [d.length_note] at hsize
  have hword : ∀ {a v : ℕ}, Holds ⟨0, ctx.size⟩ s a (Bytes.ofNat 4 v) → v < 2 ^ 32 →
      readNat ⟨0, ctx.size⟩ a 4 s = (some v, s) := fun {_ v} hv hlt => by
    rw [readNat_holds hv (ne_nil_of_length_pos (by simp)) (Bytes.length_ofNat 4 v), Bytes.val_ofNat hlt]
  have h4 : Holds ⟨0, ctx.size⟩ s (0 + 4) (Bytes.ofNat 4 d.desc.length) := h.right.left
  have h8 : Holds ⟨0, ctx.size⟩ s (0 + 8) (Bytes.ofNat 4 1) := h.right.right.left
  rw [getNote, if_neg (by omega), if_neg (by omega), bind_some (hword h.left (by decide)), bind_some (hword h4 hlt),
    bind_some (hword h8 (by decide)), show 0 + 12 + align4 5 = 20 from rfl, if_neg (by omega), if_neg (by omega), if_pos]
  · rfl
  · simp only [align4]
    omega

end

/-! ## The round trip -/

/-- The size from which on a block is refused: 256 MiB. -/
def usdtMaxsize : ℕ := 256 * 1024 * 1024

/-- `usdt_copyin_block`, when all of the block comes: what the parser is given, or an error. -/
def usdtCopyinBlock (buf : Bytes) : Except Msg Bytes :=
  if usdtMaxsize ≤ buf.length then
    .error (.err .e2big "data size %zi exceeds maximum %zi" [.num buf.length, .num usdtMaxsize])
  else .ok buf

/-- The note is accepted and read without an error, and what was written is there. -/
def RoundTrip (d : ProviderDef) (ctx : Ctx) (note tail : Bytes) : Prop :=
  usdtCopyinBlock note = .ok note ∧
    ∃ s, readNotes ctx (ctx.size + 1) 0 (St.init (note ++ tail)) = (some (), s) ∧ d.Parsed ctx.mod s

def ProbeDef.size (d : ProbeDef) : ℕ :=
  align4 (d.name.length + 3 + (d.nargs.map (·.length + 1)).sum + (d.xargs.map (·.1.length + 2)).sum)

/-- The size of the note. -/
def ProviderDef.size (d : ProviderDef) : ℕ :=
  20 + align4 (d.name.length + 1) + 24 + (d.probes.map ProbeDef.size).sum

section

variable {d : ProviderDef} {ctx : Ctx} {note tail : Bytes}

lemma length_noteAddProbe (d : ProbeDef) : (noteAddProbe d).length = d.size := by
  have hnargs : (d.nargs.flatMap (· ++ [0])).length = (d.nargs.map (·.length + 1)).sum := by
    simp [length_flatMap]
  have hxargs : (xstrs d.xargs).length = (d.xargs.map (·.1.length + 2)).sum := by
    simp [xstrs, strs, length_flatMap, Function.comp_def]
  rw [noteAddProbe, length_pad4, d.length_body, hnargs, hxargs, ProbeDef.size]
  congr 1
  omega

lemma ProviderDef.length_note_eq (d : ProviderDef) : d.note.length = d.size := by
  have hprobes : (d.probes.reverse.flatMap noteAddProbe).length = (d.probes.map ProbeDef.size).sum := by
    rw [length_flatMap, map_reverse, sum_reverse]
    exact congrArg sum (map_congr_left fun p _ => length_noteAddProbe p)
  rw [d.length_note, d.length_desc, ProviderDef.size, hprobes]
  omega

lemma noteAddProvider_some (hnote : noteAddProvider d = .ok (some note)) : note = d.note := by
  rw [noteAddProvider] at hnote
  split at hnote
  · cases hnote
  split at hnote
  · cases hnote
  cases hnote
  rfl

lemma ProviderDef.probes_le (d : ProviderDef) : d.probes.length ≤ d.size := by
  have hsum : ∀ ps : List ProbeDef, ps.length ≤ (ps.map ProbeDef.size).sum := by
    intro ps
    induction ps with
    | nil => exact Nat.le_refl 0
    | cons p ps ih =>
      have hpos : 1 ≤ p.size := by
        rw [ProbeDef.size, align4]
        omega
      rw [length_cons, map_cons, sum_cons]
      omega
  exact (hsum d.probes).trans (Nat.le_add_left _ _)

lemma readNotes_wire (hsize : ctx.size = d.note.length) (hlt : d.size < 2 ^ 32) (tail : Bytes) :
    ∃ s, readNotes ctx (ctx.size + 1) 0 (St.init (d.note ++ tail)) = (some (), s) ∧ d.Parsed ctx.mod s := by
  have hlen := d.length_note
  rw [d.length_note_eq] at hlen
  have hfew := d.probes_le
  have hholds : Holds ⟨0, ctx.size⟩ (St.init (d.note ++ tail)) 0 d.note :=
    ⟨prefix_append d.note tail, le_rfl, by rw [hsize, zero_add]⟩
  have hlit : Holds ⟨0, ctx.size⟩ (St.init (d.note ++ tail)) 12 litProv := hholds.right.right.right.left
  have hdesc : Holds ⟨20, 20 + d.desc.length⟩ (St.init (d.note ++ tail)) 20 d.desc :=
    ⟨hholds.right.right.right.right.right.mem, le_rfl, le_rfl⟩
  have hnote : (⟨1, 12, 20, d.desc.length⟩ : Note).desc % 4 = 0 := show 20 % 4 = 0 by decide
  obtain ⟨pmap, s', hrun, hprv, hlist⟩ := parseProvNote_wire ctx d hnote hdesc (lookup_create prvOps _) (by omega)
  refine ⟨s', ?_, ⟨d.name, d.attrs, 0, pmap⟩, ?_, rfl, rfl, hlist⟩
  · rw [readNotes, bind_some (getNote_wire d hsize (by omega) hholds)]
    dsimp only
    rw [parseNote, bind_assoc, bind_some (strcmpLit_holds hlit)]
    exact bind_some hrun
  · have hpos : 0 < (dtHtabCreate : Htab Provider).size := Nat.zero_lt_one
    have hins := hprv ▸ list_insert hpos _
    exact perm_singleton.1 hins

/-- **Round trip of a provider.**  The note is read back, whatever memory has behind it, if it is smaller than 256 MiB; a
larger one is refused. -/
theorem roundTrip_iff (hnote : noteAddProvider d = .ok (some note)) (hsize : ctx.size = note.length) :
    (RoundTrip d ctx note tail ↔ d.size < usdtMaxsize) ∧ (usdtMaxsize ≤ d.size → usdtCopyinBlock note =
      .error (.err .e2big "data size %zi exceeds maximum %zi" [.num d.size, .num usdtMaxsize])) := by
  obtain rfl := noteAddProvider_some hnote
  have hlen := d.length_note_eq
  refine ⟨⟨fun h => ?_, fun hlt => ⟨?_, readNotes_wire hsize ?_ tail⟩⟩, fun hle => ?_⟩
  · by_contra hle
    have hblock := h.1
    rw [usdtCopyinBlock, if_pos (by omega)] at hblock
    cases hblock
  · rw [usdtCopyinBlock, if_neg (by omega)]
  · rw [usdtMaxsize] at hlt
    omega
  · rw [usdtCopyinBlock, if_pos (by omega), hlen]

/-- `provider p { probe q(int, char *) : (char *) }`, with the second argument as the translated one. -/
def smallProvider : ProviderDef where
  name := [112]
  provider := ⟨5, 5, 4⟩
  mod := ⟨1, 1, 0⟩
  func := ⟨1, 1, 0⟩
  probeName := ⟨5, 5, 4⟩
  args := ⟨5, 5, 4⟩
  probes := [⟨[113], [[105, 110, 116], [99, 104, 97, 114, 32, 42]], [([99, 104, 97, 114, 32, 42], 1)],
    by decide, by decide, by decide, by decide, by decide⟩]
  name_ok := by decide
  distinct := by decide

theorem roundTrip_small :
    noteAddProvider smallProvider = .ok (some smallProvider.note) ∧
      RoundTrip smallProvider ⟨72, [], 0, none⟩ smallProvider.note [1, 2, 3] :=
  ⟨rfl, (roundTrip_iff rfl rfl).1.2 (by decide)⟩

def letters (i : ℕ) : Bytes :=
  [BitVec.ofNat 8 (97 + i % 26), BitVec.ofNat 8 (97 + i / 26 % 26), BitVec.ofNat 8 (97 + i / 676 % 26)]

lemma letters_ne_zero (i : ℕ) : 0 ∉ letters i := by
  have hne : ∀ n, (0 : BitVec 8) ≠ .ofNat 8 (97 + n % 26) := by
    intro n h
    have := congrArg BitVec.toNat h
    rw [BitVec.toNat_ofNat] at this
    change 0 = (97 + n % 26) % 2 ^ 8 at this
    omega
  simp only [letters, mem_cons, not_mem_nil, or_false, not_or]
  exact ⟨hne _, hne _, hne _⟩

lemma letters_inj {i j : ℕ} (hi : i < 26 ^ 3) (hj : j < 26 ^ 3) (h : letters i = letters j) : i = j := by
  have hdigit : ∀ {m n : ℕ}, BitVec.ofNat 8 (97 + m % 26) = .ofNat 8 (97 + n % 26) → m % 26 = n % 26 := by
    intro m n h
    have := congrArg BitVec.toNat h
    simp only [BitVec.toNat_ofNat] at this
    omega
  simp only [letters, List.cons.injEq, and_true] at h
  obtain ⟨h0, h1, h2⟩ := h
  have := hdigit h0
  have := hdigit h1
  have := hdigit h2
  omega

/-- A probe with 255 arguments whose types have 127 characters. -/
def wideProbe (i : ℕ) : ProbeDef where
  name := letters i
  nargs := List.replicate 255 (List.replicate 127 97)
  xargs := []
  name_ok := letters_ne_zero i
  nargs_ok := by
    intro t ht
    rw [List.eq_of_mem_replicate ht]
    refine ⟨fun h0 => ?_, ?_⟩
    · exact absurd (List.eq_of_mem_replicate h0) (by decide)
    · rw [List.length_replicate, typeNameLen]
      omega
  xargs_ok := by simp
  nargc_le := by rw [List.length_replicate]
  xargc_le := by simp

def wideProvider : ProviderDef where
  name := [112]
  provider := ⟨5, 5, 4⟩
  mod := ⟨1, 1, 0⟩
  func := ⟨1, 1, 0⟩
  probeName := ⟨5, 5, 4⟩
  args := ⟨5, 5, 4⟩
  probes := (List.range 8300).map wideProbe
  name_ok := by decide
  distinct := by
    rw [List.map_map]
    refine List.Nodup.map_on ?_ List.nodup_range
    intro i hi j hj h
    rw [List.mem_range] at hi hj
    exact letters_inj (by omega) (by omega) h

lemma size_wideProvider : usdtMaxsize ≤ wideProvider.size := by
  have hprobe : ∀ i, (wideProbe i).size = 32648 := by
    intro i
    have hnargs : ((wideProbe i).nargs.map (·.length + 1)).sum = 255 * 128 := by
      rw [wideProbe, map_replicate, sum_replicate_nat, length_replicate]
    have hname : (wideProbe i).name.length = 3 := rfl
    have hxargs : ((wideProbe i).xargs.map (·.1.length + 2)).sum = 0 := rfl
    rw [ProbeDef.size, hnargs, hname, hxargs, align4]
  have hsum : (wideProvider.probes.map ProbeDef.size).sum = 8300 * 32648 := by
    rw [wideProvider, map_map, funext hprobe (f := ProbeDef.size ∘ wideProbe), map_const', length_range,
      sum_replicate_nat]
  rw [ProviderDef.size, usdtMaxsize]
  omega

/-- More than 256 MiB of probes: the note is written, and it is not read. -/
theorem wideProvider_refused :
    noteAddProvider wideProvider = .ok (some wideProvider.note) ∧ (usdtCopyinBlock wideProvider.note).isOk = false ∧
      ¬RoundTrip wideProvider ⟨wideProvider.note.length, [], 0, none⟩ wideProvider.note [] := by
  have hlen : wideProvider.probes.length = 8300 := by rw [wideProvider, length_map, length_range]
  have hnote : noteAddProvider wideProvider = .ok (some wideProvider.note) := by
    rw [noteAddProvider, if_neg (by omega), if_neg (by decide)]
  have hblock : usdtCopyinBlock wideProvider.note = .error _ := if_pos (wideProvider.length_note_eq ▸ size_wideProvider)
  refine ⟨hnote, by rw [hblock]; rfl, fun h => ?_⟩
  cases hblock.symm.trans h.1

end

end DTrace.Usdt
