-- The names of the files in the shared state cache.
import Yocto.ListSearch
import Yocto.MirrorUris

open yocto.task_ids yocto.list_search yocto.mirror_uris

namespace yocto.sstate_names

/-! ## The functions -/

inductive Raised
  | fatal (message : Text)
  | IndexError
  deriving DecidableEq

/-- `s[:n]`, where a number below zero counts from the end. -/
def upto (s : Text) (n : Int) : Text := if 0 ≤ n then s.take n.toNat else s.take (s.length - n.natAbs)

def extension (siginfo : Bool) : Text := if siginfo then text ".tar.zst.siginfo" else text ".tar.zst"

def limit (siginfo : Bool) : Nat := if siginfo then 254 else 254 - 8

def tail (hash taskname : Text) (siginfo : Bool) : Text := hash ++ '_' :: (taskname ++ extension siginfo)

/-- A name that is too long. Fields 0, 5, 6 are mandatory, 1 is most useful, 2, 3, 4 are just
for information. -/
def reduced (spec tail : Text) (limit : Nat) : Except Raised Text :=
  match spec.splitOn ':' with
  | c0 :: c1 :: c2 :: c3 :: c4 :: c5 :: c6 :: rest =>
    -- 7 is for the separators
    let avail := ((limit : Int) - tail.length - c0.length - c1.length - c5.length - c6.length - 7) / 3
    let spec := [':'].intercalate
      (c0 :: c1 :: upto c2 avail :: upto c3 avail :: upto c4 avail :: c5 :: c6 :: rest)
    let fn := spec ++ tail
    if limit < fn.length then
      .error (.fatal (text "Unable to reduce sstate name to less than 255 chararacters"))
    else .ok fn
  | _ => .error .IndexError

/-- The two directories of a file, by the first characters of the hash. -/
def placed (hash fn : Text) : Text := hash.take 2 ++ '/' :: (slice hash 2 4 ++ '/' :: fn)

def named (hash : Text) : Text := if hash = [] then text "INVALID" else hash

def generate_sstatefn (spec hash : Text) (taskname : Option Text) (siginfo : Bool) :
    Except Raised Text :=
  match taskname with
  | none => .ok []
  | some taskname =>
    let hash := named hash
    let fn := spec ++ tail hash taskname siginfo
    if limit siginfo < fn.length then
      (reduced spec (tail hash taskname siginfo) (limit siginfo)).map (placed hash)
    else .ok (placed hash fn)

/-! ## The fields -/

/-- The seven fields of `SSTATE_PKGSPEC`: the word `sstate`, `PN`, the architecture with vendor
and system, `PV`, `PR`, `SSTATE_PKGARCH` and `SSTATE_VERSION`. -/
structure Fields where
  mark : Text
  pn : Text
  arch : Text
  pv : Text
  pr : Text
  pkgarch : Text
  version : Text
  no_colon : ∀ field ∈ [mark, pn, arch, pv, pr, pkgarch, version], ':' ∉ field

def Fields.all (f : Fields) : List Text := [f.mark, f.pn, f.arch, f.pv, f.pr, f.pkgarch, f.version]

/-- Each field, and a colon behind it. -/
def Fields.spec (f : Fields) : Text := f.all.flatMap fun field => field ++ [':']

/-- The fields that inform are cut. -/
def Fields.cut (f : Fields) (avail : Nat) : Fields where
  mark := f.mark
  pn := f.pn
  arch := f.arch.take avail
  pv := f.pv.take avail
  pr := f.pr.take avail
  pkgarch := f.pkgarch
  version := f.version
  no_colon := by
    have hno := f.no_colon
    simp only [List.forall_mem_cons] at hno ⊢
    obtain ⟨hmark, hpn, harch, hpv, hpr, hrest⟩ := hno
    exact ⟨hmark, hpn, fun h => harch (List.mem_of_mem_take h), fun h => hpv (List.mem_of_mem_take h),
      fun h => hpr (List.mem_of_mem_take h), hrest⟩

/-- The length of the fields that stay, with the separators. -/
def Fields.fixed (f : Fields) : Nat :=
  f.mark.length + f.pn.length + f.pkgarch.length + f.version.length + 7

theorem Fields.length_spec (f : Fields) :
    f.spec.length = f.fixed + f.arch.length + f.pv.length + f.pr.length := by
  simp only [Fields.spec, Fields.all, Fields.fixed, List.flatMap_cons, List.flatMap_nil,
    List.length_append, List.length_cons, List.length_nil]
  omega

theorem intercalate_spec (fields : List Text) :
    [':'].intercalate (fields ++ [[]]) = fields.flatMap fun field => field ++ [':'] := by
  induction fields with
  | nil => rfl
  | cons field fields ih =>
    have hne : fields ++ [[]] ≠ [] := by simp
    rw [List.cons_append, List.intercalate_cons_of_ne_nil hne, ih, List.flatMap_cons]

theorem Fields.splitOn_spec (f : Fields) : f.spec.splitOn ':' = f.all ++ [[]] := by
  rw [Fields.spec, ← intercalate_spec]
  refine List.splitOn_intercalate ':' ?_ (by simp)
  intro field hfield
  rcases List.mem_append.mp hfield with h | h
  · exact f.no_colon field h
  · rw [List.mem_singleton.mp h]
    exact List.not_mem_nil

theorem Fields.spec_append_inj {f g : Fields} {s t : Text} (h : f.spec ++ s = g.spec ++ t) :
    f.all = g.all ∧ s = t := by
  have hstep : ∀ {as bs : List Text}, (∀ a ∈ as, ':' ∉ a) → (∀ b ∈ bs, ':' ∉ b) → as.length = bs.length →
      (as.flatMap fun a => a ++ [':']) ++ s = (bs.flatMap fun b => b ++ [':']) ++ t → as = bs ∧ s = t := by
    intro as
    induction as with
    | nil =>
      intro bs _ _ hlen heq
      rw [List.eq_nil_of_length_eq_zero hlen.symm] at heq ⊢
      exact ⟨rfl, heq⟩
    | cons a as ih =>
      intro bs has hbs hlen heq
      cases bs with
      | nil => simp at hlen
      | cons b bs =>
        rw [List.forall_mem_cons] at has hbs
        simp only [List.flatMap_cons, List.append_assoc, List.singleton_append] at heq
        obtain ⟨hab, hrest⟩ := cut_inj has.1 hbs.1 heq
        obtain ⟨htail, hst⟩ := ih has.2 hbs.2 (by simpa using hlen) hrest
        exact ⟨by rw [hab, htail], hst⟩
  exact hstep f.no_colon g.no_colon rfl h

/-! ## What a name holds -/

theorem upto_of_nonneg (s : Text) {n : Int} (h : 0 ≤ n) : upto s n = s.take n.toNat := if_pos h

theorem length_extension (siginfo : Bool) : (extension siginfo).length + 246 = limit siginfo + 8 := by
  cases siginfo <;> rfl

theorem tail_siginfo (hash taskname : Text) :
    tail hash taskname true = tail hash taskname false ++ text ".siginfo" := by
  simp [tail, extension, text]

theorem length_tail (hash taskname : Text) (siginfo : Bool) :
    (tail hash taskname siginfo).length + 246 = hash.length + 1 + taskname.length + limit siginfo + 8 := by
  have := length_extension siginfo
  simp only [tail, List.length_append, List.length_cons]
  omega

variable (f : Fields) (hash taskname : Text)

/-- What each of the fields that inform may keep. The length of the extension and the limit
differ by the same. -/
def Fields.avail : Nat := (246 - (f.fixed + (hash.length + 1 + taskname.length + 8))) / 3

/-- The fields in the name: all of them where they fit. -/
def Fields.shown : Fields :=
  if f.spec.length + (hash.length + 1 + taskname.length + 8) ≤ 246 then f else f.cut (f.avail hash taskname)

theorem Fields.reduced_fields (s : Text) (bound : Nat) (avail : Int)
    (havail : avail = ((bound : Int) - (f.fixed + s.length : Nat)) / 3) :
    reduced f.spec s bound =
      let fields := [f.mark, f.pn, upto f.arch avail, upto f.pv avail, upto f.pr avail, f.pkgarch, f.version]
      let fn := (fields.flatMap fun field => field ++ [':']) ++ s
      if bound < fn.length then
        .error (.fatal (text "Unable to reduce sstate name to less than 255 chararacters"))
      else .ok fn := by
  have hsum : (bound : Int) - s.length - f.mark.length - f.pn.length - f.pkgarch.length -
      f.version.length - 7 = (bound : Int) - (f.fixed + s.length : Nat) := by
    unfold Fields.fixed
    omega
  unfold reduced
  rw [f.splitOn_spec]
  simp only [Fields.all, List.cons_append, List.nil_append]
  rw [hsum, ← havail, ← intercalate_spec]
  rfl

theorem Fields.reduced_spec (s : Text) (bound : Nat) :
    reduced f.spec s bound =
      if f.fixed + s.length ≤ bound then .ok ((f.cut ((bound - (f.fixed + s.length)) / 3)).spec ++ s)
      else .error (.fatal (text "Unable to reduce sstate name to less than 255 chararacters")) := by
  rw [f.reduced_fields s bound _ rfl]
  by_cases h : f.fixed + s.length ≤ bound
  · have havail : ((bound : Int) - (f.fixed + s.length : Nat)) / 3 =
        ((bound - (f.fixed + s.length)) / 3 : Nat) := by omega
    rw [if_pos h, havail]
    simp only [upto_of_nonneg _ (Int.natCast_nonneg _), Int.toNat_natCast]
    have hlength : ((f.cut ((bound - (f.fixed + s.length)) / 3)).spec ++ s).length ≤ bound := by
      rw [List.length_append, Fields.length_spec]
      simp only [Fields.fixed, Fields.cut, List.length_take] at h ⊢
      omega
    apply if_neg
    exact Nat.not_lt.mpr hlength
  · -- a remainder below zero never makes room
    rw [if_neg h]
    apply if_pos
    simp only [List.flatMap_cons, List.flatMap_nil, List.length_append, List.length_cons, List.length_nil]
    unfold Fields.fixed at h
    omega

theorem generate_sstatefn_spec (siginfo : Bool) :
    generate_sstatefn f.spec hash (some taskname) siginfo =
      if f.fixed + ((named hash).length + 1 + taskname.length + 8) ≤ 246 then
        .ok (placed (named hash)
          ((f.shown (named hash) taskname).spec ++ tail (named hash) taskname siginfo))
      else .error (.fatal (text "Unable to reduce sstate name to less than 255 chararacters")) := by
  have htail := length_tail (named hash) taskname siginfo
  have hspec := f.length_spec
  have hlimit : 246 ≤ limit siginfo := by cases siginfo <;> decide
  unfold generate_sstatefn Fields.shown
  simp only [List.length_append]
  by_cases hfits : f.spec.length + ((named hash).length + 1 + taskname.length + 8) ≤ 246
  · rw [if_neg (by omega), if_pos (by omega), if_pos hfits]
  · rw [if_pos (by omega), f.reduced_spec, if_neg hfits]
    by_cases hroom : f.fixed + ((named hash).length + 1 + taskname.length + 8) ≤ 246
    · have havail : limit siginfo - (f.fixed + (tail (named hash) taskname siginfo).length) =
          246 - (f.fixed + ((named hash).length + 1 + taskname.length + 8)) := by omega
      rw [if_pos (by omega), if_pos hroom, havail]
      rfl
    · rw [if_neg (by omega), if_neg hroom]
      rfl

theorem Fields.length_shown (siginfo : Bool)
    (h : f.fixed + (hash.length + 1 + taskname.length + 8) ≤ 246) :
    ((f.shown hash taskname).spec ++ tail hash taskname siginfo).length ≤ limit siginfo := by
  have htail := length_tail hash taskname siginfo
  rw [List.length_append]
  unfold Fields.shown
  split
  · omega
  · rw [Fields.length_spec]
    simp only [Fields.avail, Fields.fixed, Fields.cut, List.length_take] at h ⊢
    omega

theorem Fields.shown_fixed :
    (f.shown hash taskname).mark = f.mark ∧ (f.shown hash taskname).pn = f.pn ∧
      (f.shown hash taskname).pkgarch = f.pkgarch ∧ (f.shown hash taskname).version = f.version := by
  unfold Fields.shown
  split <;> exact ⟨rfl, rfl, rfl, rfl⟩

theorem Fields.mem_shown {c : Char} (h : c ∈ (f.shown hash taskname).spec) : c ∈ f.spec := by
  unfold Fields.shown at h
  split at h
  · exact h
  · have harch : c ∈ f.arch.take (f.avail hash taskname) → c ∈ f.arch := List.mem_of_mem_take
    have hpv : c ∈ f.pv.take (f.avail hash taskname) → c ∈ f.pv := List.mem_of_mem_take
    have hpr : c ∈ f.pr.take (f.avail hash taskname) → c ∈ f.pr := List.mem_of_mem_take
    simp only [Fields.spec, Fields.all, Fields.cut, List.flatMap_cons, List.flatMap_nil,
      List.mem_append] at h ⊢
    tauto

theorem Fields.parts_inside (siginfo : Bool) :
    ∀ part ∈ [f.mark, f.pn, f.pkgarch, f.version, hash, taskname],
      part <:+: (f.shown hash taskname).spec ++ tail hash taskname siginfo := by
  obtain ⟨hmark, hpn, hpkgarch, hversion⟩ := f.shown_fixed hash taskname
  have hfield : ∀ field ∈ (f.shown hash taskname).all,
      field <:+: (f.shown hash taskname).spec ++ tail hash taskname siginfo := by
    intro field hfield
    obtain ⟨before, behind, hall⟩ := List.append_of_mem hfield
    refine ⟨before.flatMap (fun field => field ++ [':']),
      ':' :: (behind.flatMap (fun field => field ++ [':']) ++ tail hash taskname siginfo), ?_⟩
    simp [Fields.spec, hall]
  simp only [Fields.all, List.forall_mem_cons] at hfield
  obtain ⟨h0, h1, -, -, -, h5, h6, -⟩ := hfield
  simp only [List.forall_mem_cons]
  refine ⟨hmark ▸ h0, hpn ▸ h1, hpkgarch ▸ h5, hversion ▸ h6, ?_, ?_, by simp⟩
  · exact ⟨(f.shown hash taskname).spec, '_' :: (taskname ++ extension siginfo), by simp [tail]⟩
  · exact ⟨(f.shown hash taskname).spec ++ hash ++ ['_'], extension siginfo, by simp [tail]⟩

/-! ## The names of hashes -/

def Hexadecimal (hash : Text) : Prop := ∀ c ∈ hash, c ∈ text "0123456789abcdefABCDEF"

theorem named_holds_no {hash : Text} (h : Hexadecimal hash) {c : Char}
    (hc : c ∉ text "0123456789abcdefABCDEF") (hword : c ∉ text "INVALID") : c ∉ named hash := by
  unfold named
  split
  · exact hword
  · exact fun hmem => hc (h c hmem)

theorem named_inj {hash hash' : Text} (h : Hexadecimal hash) (h' : Hexadecimal hash')
    (heq : named hash = named hash') : hash = hash' := by
  have hword : ¬ Hexadecimal (text "INVALID") := fun hhex => absurd (hhex 'I' (by decide)) (by decide)
  unfold named at heq
  split at heq <;> split at heq
  · simp_all
  · exact absurd (heq ▸ h') hword
  · exact absurd (heq ▸ h) hword
  · exact heq

theorem tail_inj {hash hash' taskname taskname' : Text} {siginfo : Bool} (h : '_' ∉ hash) (h' : '_' ∉ hash')
    (heq : tail hash taskname siginfo = tail hash' taskname' siginfo) : hash = hash' ∧ taskname = taskname' := by
  obtain ⟨rfl, hrest⟩ := cut_inj h h' heq
  exact ⟨rfl, List.append_cancel_right hrest⟩

theorem basename_append {dir fn : Text} (h : '/' ∉ fn) : basename (dir ++ '/' :: fn) = fn := by
  unfold basename List.rtakeWhile
  rw [List.reverse_append, List.reverse_cons, List.append_assoc, List.takeWhile_append_of_pos]
  · simp
  · intro c hc
    have hne : c ≠ '/' := fun hslash => h (hslash ▸ List.mem_reverse.mp hc)
    simpa using hne

theorem basename_placed (hash : Text) {fn : Text} (h : '/' ∉ fn) : basename (placed hash fn) = fn := by
  have hplaced : placed hash fn = (hash.take 2 ++ '/' :: slice hash 2 4) ++ '/' :: fn := by
    simp [placed]
  rw [hplaced]
  exact basename_append h

theorem placed_inj {hash hash' fn fn' : Text} (h : '/' ∉ hash) (h' : '/' ∉ hash')
    (heq : placed hash fn = placed hash' fn') : fn = fn' := by
  have hno : ∀ {s : Text} {a b : Nat}, '/' ∉ s → '/' ∉ slice s a b := fun hs hmem =>
    hs (List.mem_of_mem_take (List.mem_of_mem_drop hmem))
  obtain ⟨-, hrest⟩ := cut_inj (fun hmem => h (List.mem_of_mem_take hmem))
    (fun hmem => h' (List.mem_of_mem_take hmem)) heq
  exact (cut_inj (hno h) (hno h') hrest).2

/-- The names of the shared state cache. The last component holds the fields that are mandatory, the
hash and the task, the file of the signature is named as the other, and no two tasks of a spec with
their hashes have one name. -/
theorem names_hold_what_counts (hhash : Hexadecimal hash) :
    (∀ siginfo, (∃ e, generate_sstatefn f.spec hash (some taskname) siginfo = .error e) ∨
      ∃ fn, generate_sstatefn f.spec hash (some taskname) siginfo = .ok (placed (named hash) fn) ∧
        fn.length ≤ (if siginfo then 254 else 246) ∧
        (∀ part ∈ [f.mark, f.pn, f.pkgarch, f.version, hash, taskname], part <:+: fn) ∧
        ('/' ∉ f.spec → '/' ∉ taskname → basename (placed (named hash) fn) = fn)) ∧
    generate_sstatefn f.spec hash (some taskname) true =
      (generate_sstatefn f.spec hash (some taskname) false).map (· ++ text ".siginfo") ∧
    ∀ hash' taskname', Hexadecimal hash' → (hash, taskname) ≠ (hash', taskname') → ∀ siginfo name,
      generate_sstatefn f.spec hash (some taskname) siginfo = .ok name →
        generate_sstatefn f.spec hash' (some taskname') siginfo ≠ .ok name := by
  refine ⟨?_, ?_, ?_⟩
  · intro siginfo
    rw [generate_sstatefn_spec]
    split
    · rename_i hroom
      refine Or.inr ⟨_, rfl, ?_, ?_, ?_⟩
      · have := f.length_shown (named hash) taskname siginfo hroom
        cases siginfo
        · exact this
        · exact this
      · have hparts := f.parts_inside (named hash) taskname siginfo
        simp only [List.forall_mem_cons] at hparts ⊢
        obtain ⟨h0, h1, h5, h6, hname, htask, hnil⟩ := hparts
        refine ⟨h0, h1, h5, h6, ?_, htask, hnil⟩
        unfold named at hname ⊢
        split
        · rename_i hempty
          rw [hempty]
          exact List.nil_infix
        · rename_i hne
          rwa [if_neg hne] at hname
      · intro hspec htask
        apply basename_placed
        have hname := named_holds_no hhash (show '/' ∉ _ by decide) (by decide)
        have hextension : '/' ∉ extension siginfo := by cases siginfo <;> decide
        rw [List.mem_append, not_or]
        refine ⟨fun hmem => hspec (f.mem_shown _ _ hmem), ?_⟩
        simp [tail, hname, htask, hextension]
    · exact Or.inl ⟨_, rfl⟩
  · rw [generate_sstatefn_spec, generate_sstatefn_spec, tail_siginfo]
    split
    · simp [placed, Except.map]
    · rfl
  · intro hash' taskname' hhash' hne siginfo name hname hname'
    rw [generate_sstatefn_spec] at hname hname'
    split at hname
    · split at hname'
      · have heq := Except.ok.inj (hname.trans hname'.symm)
        have hslash := named_holds_no hhash (show '/' ∉ _ by decide) (by decide)
        have hslash' := named_holds_no hhash' (show '/' ∉ _ by decide) (by decide)
        obtain ⟨-, htail⟩ := Fields.spec_append_inj (placed_inj hslash hslash' heq)
        obtain ⟨hnamed, htask⟩ := tail_inj (named_holds_no hhash (show '_' ∉ _ by decide) (by decide))
          (named_holds_no hhash' (show '_' ∉ _ by decide) (by decide)) htail
        exact hne (by rw [named_inj hhash hhash' hnamed, htask])
      · cases hname'
    · cases hname

def zlib : Fields where
  mark := text "sstate"
  pn := text "zlib"
  arch := text "core2-64-poky-linux"
  pv := text "1.3.1"
  pr := text "r0"
  pkgarch := text "core2-64"
  version := text "12"
  no_colon := by decide

theorem names_of_zlib :
    generate_sstatefn zlib.spec (text "0af1") (some (text "package")) true =
      (generate_sstatefn zlib.spec (text "0af1") (some (text "package")) false).map (· ++ text ".siginfo") ∧
    generate_sstatefn zlib.spec (text "0af2") (some (text "package")) false ≠
      .ok (text "0a/f1/sstate:zlib:core2-64-poky-linux:1.3.1:r0:core2-64:12:0af1_package.tar.zst") := by
  have hhash : Hexadecimal (text "0af1") := by
    simp [Hexadecimal, text]
  have hhash' : Hexadecimal (text "0af2") := by
    simp [Hexadecimal, text]
  have h := names_hold_what_counts zlib (text "0af1") (text "package") hhash
  exact ⟨h.2.1, h.2.2 (text "0af2") (text "package") hhash' (by decide) false _ (by decide)⟩

end yocto.sstate_names
