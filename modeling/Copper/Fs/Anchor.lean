import Copper.Fs.Front

/-!
# The anchor of a Windows path

A Windows path is anchored at a server and share, at a drive, at the root or the directory of a drive that it does not name, or
nowhere. `cpr_normalize_path` copies what an absolute path starts with, but takes a single leading separator for nothing, puts
the first name after a server without a share in the place of the share, and lets any component that is left at the front of a
relative path be read as a drive.
-/

namespace Copper.Fs

/-- What a path is anchored at. -/
inductive Anchor where
  | unc
  | driveAbs
  | rooted
  | driveRel
  | plain
  deriving DecidableEq, Repr

/-- A separator at a position. -/
def sepAt (p : List UInt8) (i : Nat) : Bool := (p[i]?).any (fsIsSep .windows)

/-- Two leading separators; `X:` and a separator; one leading separator; `X:` without one; or none of these. Any byte will do for
the letter, as it does for `cpr_path_is_abs`. -/
def anchorOf (p : List UInt8) : Anchor :=
  if sepAt p 0 ∧ sepAt p 1 then .unc
  else if p[1]? = some 58 ∧ sepAt p 2 then .driveAbs
  else if sepAt p 0 then .rooted
  else if p[1]? = some 58 then .driveRel
  else .plain

/-- The server of a UNC path. -/
def uncServer (p : List UInt8) : List UInt8 := (spanName .windows (p.drop 2)).1

/-- The share. -/
def uncShare (p : List UInt8) : List UInt8 := (spanName .windows (spanName .windows (p.drop 2)).2.tail).1

/-- What is left after both. -/
def uncRest (p : List UInt8) : List UInt8 := (spanName .windows (spanName .windows (p.drop 2)).2.tail).2.tail

/-- The same class, and for a UNC path the same server and share, for a drive-absolute one the same letter. -/
def KeepsAnchor (path out : List UInt8) : Prop :=
  anchorOf out = anchorOf path ∧
    (anchorOf path = .unc → uncServer out = uncServer path ∧ uncShare out = uncShare path) ∧
    (anchorOf path = .driveAbs → out[0]? = path[0]?)

/-- By the class of the path. UNC: there is a share, or nothing is left of the components after it. Drive-absolute: always.
Rooted: never. Drive-relative: a name with a colon for its second byte is left at the front, and it is not `X:` with more after
it. Plain: no name with a colon for its second byte is left at the front. -/
def AnchorStays (path : List UInt8) : Prop :=
  match anchorOf path with
  | .unc => uncShare path = [] → frontOf .windows true (uncRest path) = .nothing
  | .driveAbs => True
  | .rooted => False
  | .driveRel => ∃ n depth, frontOf .windows false path = .name n depth ∧ n[1]? = some 58 ∧ (n.length = 2 → depth = 1)
  | .plain => ∀ n depth, frontOf .windows false path = .name n depth → n[1]? ≠ some 58

/-! ## Classes -/

/-- The tests of `cpr_path_is_abs`. -/
theorem anchorOf_cases (p : List UInt8) :
    (anchorOf p = .unc ∧ sepAt p 0 ∧ sepAt p 1) ∨ (anchorOf p = .driveAbs ∧ p[1]? = some 58 ∧ sepAt p 2) ∨
      (anchorOf p ≠ .unc ∧ anchorOf p ≠ .driveAbs ∧ ¬ (sepAt p 0 ∧ sepAt p 1) ∧ ¬ (p[1]? = some 58 ∧ sepAt p 2)) := by
  unfold anchorOf
  split
  · rename_i hunc
    exact .inl ⟨rfl, hunc⟩
  · rename_i hunc
    split
    · rename_i hdrive
      exact .inr (.inl ⟨rfl, hdrive⟩)
    · rename_i hdrive
      refine .inr (.inr ⟨?_, ?_, hunc, hdrive⟩)
      · split
        · exact Anchor.noConfusion
        · split <;> exact Anchor.noConfusion
      · split
        · exact Anchor.noConfusion
        · split <;> exact Anchor.noConfusion

/-- The class of an absolute path. -/
theorem pathIsAbs_windows_iff (p : List UInt8) :
    pathIsAbs .windows (some p) = true ↔ anchorOf p = .unc ∨ anchorOf p = .driveAbs := by
  have habs : pathIsAbs .windows (some p) = true ↔ (sepAt p 0 ∧ sepAt p 1) ∨ (p[1]? = some 58 ∧ sepAt p 2) := by
    have hfirst : p[1]? = some 58 → p[0]?.isSome = true := by
      intro h
      cases p with
      | nil => cases h
      | cons c p => rfl
    simp only [pathIsAbs, sepAt, Bool.or_eq_true, Bool.and_eq_true, decide_eq_true_eq]
    constructor
    · rintro (h | ⟨⟨-, h58⟩, h2⟩)
      · exact .inl h
      · exact .inr ⟨h58, h2⟩
    · rintro (h | ⟨h58, h2⟩)
      · exact .inl h
      · exact .inr ⟨⟨hfirst h58, h58⟩, h2⟩
  rw [habs]
  rcases anchorOf_cases p with ⟨hanchor, hunc⟩ | ⟨hanchor, hdrive⟩ | ⟨hunc, hdrive, hseps, hcolon⟩
  · exact iff_of_true (.inl hunc) (.inl hanchor)
  · exact iff_of_true (.inr hdrive) (.inr hanchor)
  · exact iff_of_false (not_or.mpr ⟨hseps, hcolon⟩) (not_or.mpr ⟨hunc, hdrive⟩)

section

variable {n : List UInt8}

theorem sepAt_zero (hn : IsName .windows n) (rest : List UInt8) : sepAt (n ++ rest) 0 = false := by
  obtain ⟨c, n', rfl⟩ := List.exists_cons_of_ne_nil hn.1
  exact hn.2 c List.mem_cons_self

/-- A name. -/
theorem anchorOf_name (hn : IsName .windows n) : anchorOf n = if n[1]? = some 58 then .driveRel else .plain := by
  have h0 := sepAt_zero hn []
  have h2 : sepAt n 2 = false := by
    rw [sepAt]
    cases hc : n[2]? with
    | none => rfl
    | some c => exact hn.2 c (List.mem_of_getElem? hc)
  rw [List.append_nil] at h0
  simp [anchorOf, h0, h2]

/-- A name with more after it. -/
theorem anchorOf_append (hn : IsName .windows n) (rest : List UInt8) :
    anchorOf (n ++ 92 :: rest) =
      if n[1]? = some 58 then if n.length = 2 then .driveAbs else .driveRel else .plain := by
  have h0 := sepAt_zero hn (92 :: rest)
  rw [anchorOf, h0]
  rcases n with _ | ⟨a, _ | ⟨b, _ | ⟨c, n⟩⟩⟩
  · exact absurd rfl hn.1
  · simp
  · by_cases hb : b = 58
    · simp [hb, sepAt, fsIsSep]
    · simp [hb]
  · have hc : sepAt (a :: b :: c :: (n ++ 92 :: rest)) 2 = false := hn.2 c (by simp)
    simp [hc]

end

/-! ## Relative paths -/

namespace Front

/-- The class of a text with this at its front. -/
def anchor : Front → Anchor
  | .nothing => .plain
  | .name n depth => if n[1]? = some 58 then if n.length = 2 ∧ depth ≠ 1 then .driveAbs else .driveRel else .plain
  | .up => .plain

theorem anchor_name (n : List UInt8) (depth : Nat) :
    (Front.name n depth).anchor =
      if n[1]? = some 58 then if n.length = 2 ∧ depth ≠ 1 then .driveAbs else .driveRel else .plain := rfl

variable {f : Front}

theorem anchor_ne_rooted : f.anchor ≠ .rooted := by
  cases f with
  | nothing => exact Anchor.noConfusion
  | name n depth =>
    rw [anchor_name]
    split
    · split <;> exact Anchor.noConfusion
    · exact Anchor.noConfusion
  | up => exact Anchor.noConfusion

theorem anchor_eq_driveRel_iff :
    f.anchor = .driveRel ↔ ∃ n depth, f = .name n depth ∧ n[1]? = some 58 ∧ (n.length = 2 → depth = 1) := by
  have hname : (∃ n depth, f = .name n depth ∧ n[1]? = some 58 ∧ (n.length = 2 → depth = 1)) → f.anchor = .driveRel := by
    rintro ⟨n, depth, rfl, h58, hbare⟩
    rw [anchor_name, if_pos h58, if_neg fun h => h.2 (hbare h.1)]
  refine ⟨fun h => ?_, hname⟩
  cases f with
  | nothing => cases h
  | name n depth =>
    rw [anchor_name] at h
    split at h
    · rename_i h58
      split at h
      · cases h
      · rename_i hbare
        exact ⟨n, depth, rfl, h58, fun hlen => by_contra fun hdepth => hbare ⟨hlen, hdepth⟩⟩
    · cases h
  | up => cases h

theorem anchor_eq_plain_iff : f.anchor = .plain ↔ ∀ n depth, f = .name n depth → n[1]? ≠ some 58 := by
  cases f with
  | nothing => exact iff_of_true rfl fun n depth h => Front.noConfusion h
  | name n depth =>
    rw [anchor_name]
    constructor
    · rintro h n' depth' heq h58
      obtain ⟨rfl, rfl⟩ := Front.name.inj heq
      rw [if_pos h58] at h
      split at h <;> cases h
    · intro h
      exact if_neg (h n depth rfl)
  | up => exact iff_of_true rfl fun n depth h => Front.noConfusion h

end Front

/-- A relative path is not left empty. -/
theorem Fronts.text_terminate {f : Front} {s : NormState} (hs : Fronts .windows [] f s) :
    (s.terminate false).text = if f = .nothing then [46] else s.text := by
  rw [NormState.text_terminate]
  have hkeep : ∀ c rest, s.text = c :: rest → fsIsSep .windows c = false →
      ¬ ((s.out = 0 ∨ s.out = 1 ∧ (s.buf 0 = 47 ∨ s.buf 0 = 92)) ∧ false = false) := by
    rintro c rest htext hc ⟨hout | ⟨hout, hsep⟩, -⟩
    · rw [← s.length_text, htext] at hout
      cases hout
    · rw [NormState.text, hout] at htext
      have hbuf : s.buf 0 = c := List.head_eq_of_cons_eq htext
      rw [hbuf] at hsep
      simp [fsIsSep] at hc
      exact absurd hsep (not_or.mpr hc)
  cases f with
  | nothing =>
    cases hs with
    | nothing htext hends =>
      rw [if_pos ⟨.inl (by rw [← s.length_text, htext]; rfl), rfl⟩, if_pos rfl, htext]
      rfl
  | name n depth =>
    obtain ⟨hn, hcases⟩ := hs.name_cases
    obtain ⟨c, n', rfl⟩ := List.exists_cons_of_ne_nil hn.1
    have hc := hn.2 c List.mem_cons_self
    rw [if_neg (c := _ = _) Front.noConfusion]
    rcases hcases with ⟨-, htext⟩ | ⟨-, rest, htext⟩
    · exact if_neg (hkeep c _ htext hc)
    · exact if_neg (hkeep c _ htext hc)
  | up =>
    cases hs with
    | up hbase htext hends hsorted =>
      rw [if_neg (hkeep 46 _ htext rfl), if_neg Front.noConfusion]

/-- The class of what is written for a relative path. -/
theorem anchorOf_relative (mem : Nat → UInt8) {path : List UInt8} (habs : pathIsAbs .windows (some path) = false) :
    anchorOf (normalized .windows mem path).text = (frontOf .windows false path).anchor := by
  have hs := fronts_relative .windows mem path
  have htext : (normalized .windows mem path).text
      = ((normalizeLoop .windows false path.length path { buf := mem }).terminate false).text := by
    rw [normalized, habs]
    rfl
  rw [htext, hs.text_terminate]
  generalize normalizeLoop .windows false path.length path { buf := mem } = s at hs
  generalize frontOf .windows false path = f at hs
  cases f with
  | nothing => rfl
  | name n depth =>
    obtain ⟨hn, ⟨hone, htext⟩ | ⟨hmore, rest, htext⟩⟩ := hs.name_cases
    · rw [if_neg Front.noConfusion, htext, glued_nil, anchorOf_name hn, hone]
      simp [Front.anchor_name]
    · rw [if_neg Front.noConfusion, htext, glued_nil, Front.anchor_name]
      simp only [hmore, not_false_iff, and_true, ne_eq]
      exact anchorOf_append hn rest
  | up =>
    cases hs with
    | @up _ rest hbase htext hends hsorted =>
      rw [if_neg Front.noConfusion, htext]
      rfl

/-! ## Absolute paths -/

/-- The text of an absolute path is that of the loop. -/
theorem fronts_normalized (mem : Nat → UInt8) {path : List UInt8} (habs : pathIsAbs .windows (some path) = true)
    (hends : (normalizePrefix .windows { buf := mem } path).1.compEnds = []) :
    ∃ s, (normalized .windows mem path).text = s.text ∧
      Fronts .windows (normalizePrefix .windows { buf := mem } path).1.text
        (frontOf .windows true (normalizePrefix .windows { buf := mem } path).2) s := by
  refine ⟨_, ?_, fronts_absolute hends _⟩
  rw [normalized, habs]
  exact (NormState.text_terminate ..).trans (if_neg fun h => Bool.noConfusion h.2)

/-- What the path starts with stays. -/
theorem Fronts.base_isPrefix {platform : Platform} {base : List UInt8} {f : Front} {s : NormState} (hs : Fronts platform base f s) :
    base <+: s.text := by
  cases hs with
  | nothing htext hends => exact ⟨[], by rw [htext, List.append_nil]⟩
  | one hn htext hends =>
    rw [htext]
    exact List.prefix_append ..
  | more hn htext hends hsorted hdepth =>
    rw [htext, glued, List.append_assoc]
    exact List.prefix_append ..
  | up hbase htext hends hsorted =>
    rw [hbase]
    exact List.nil_prefix

/-- A drive-absolute path keeps its drive. -/
theorem keepsAnchor_drive (mem : Nat → UInt8) {path : List UInt8} (hanchor : anchorOf path = .driveAbs) :
    KeepsAnchor path (normalized .windows mem path).text := by
  have habs := (pathIsAbs_windows_iff path).mpr (.inr hanchor)
  obtain ⟨x, c, rest, rfl, hc⟩ : ∃ x c rest, path = x :: 58 :: c :: rest ∧ fsIsSep .windows c = true := by
    rcases anchorOf_cases path with ⟨hunc, -⟩ | ⟨-, h58, h2⟩ | ⟨-, hdrive, -⟩
    · rw [hanchor] at hunc
      cases hunc
    · rcases path with _ | ⟨x, _ | ⟨b, _ | ⟨c, rest⟩⟩⟩
      · cases h58
      · cases h58
      · cases h2
      · obtain rfl : b = 58 := Option.some.inj h58
        exact ⟨x, c, rest, rfl, h2⟩
    · exact absurd hanchor hdrive
  have hstart : normalizePrefix .windows { buf := mem } (x :: 58 :: c :: rest)
      = (({ buf := mem : NormState }.copy [x, 58]).emit 92, rest) := by
    have hcolon : fsIsSep .windows 58 = false := rfl
    simp [normalizePrefix, hc, hcolon]
  have htext : (({ buf := mem : NormState }.copy [x, 58]).emit 92).text = [x, 58, 92] := by
    rw [NormState.text_emit, NormState.text_copy]
    rfl
  obtain ⟨s, hs, hfronts⟩ := fronts_normalized mem habs (by rw [hstart]; rfl)
  rw [hstart, htext] at hfronts
  obtain ⟨more, hmore⟩ := hfronts.base_isPrefix
  have hstays : anchorOf ([x, 58, 92] ++ more) = .driveAbs := by
    simp [anchorOf, sepAt, fsIsSep]
  rw [hs, ← hmore]
  refine ⟨hstays.trans hanchor.symm, fun hunc => ?_, fun _ => rfl⟩
  rw [hanchor] at hunc
  cases hunc

/-! ### UNC paths -/

section

variable {n : List UInt8}

theorem spanName_name (hn : ∀ c ∈ n, fsIsSep .windows c = false) : spanName .windows n = (n, []) := by
  have hall : ∀ c ∈ n, (!fsIsSep .windows c) = true := fun c hc => by rw [hn c hc]; rfl
  rw [spanName, List.takeWhile_eq_self_iff.mpr hall, List.dropWhile_eq_nil_iff.mpr hall]

theorem spanName_append (hn : ∀ c ∈ n, fsIsSep .windows c = false) (rest : List UInt8) :
    spanName .windows (n ++ 92 :: rest) = (n, 92 :: rest) := by
  have hall : ∀ c ∈ n, (!fsIsSep .windows c) = true := fun c hc => by rw [hn c hc]; rfl
  rw [spanName, List.takeWhile_append_of_pos hall, List.dropWhile_append_of_pos hall]
  simp [fsIsSep]

end

/-- What a UNC path starts with: the server, a separator if the path has one after it, and the share. -/
def uncBase (p : List UInt8) : List UInt8 :=
  [92, 92] ++ (uncServer p ++ ((if (spanName .windows (p.drop 2)).2 = [] then [] else [92]) ++ uncShare p))

theorem normalizePrefix_unc (s : NormState) {p : List UInt8} (hanchor : anchorOf p = .unc) :
    (normalizePrefix .windows s p).1.text = s.text ++ uncBase p ∧ (normalizePrefix .windows s p).1.compEnds = s.compEnds ∧
      (normalizePrefix .windows s p).2 = uncRest p := by
  have hseps : (sepAt p 0 && sepAt p 1) = true := by
    rw [Bool.and_eq_true]
    rcases anchorOf_cases p with ⟨-, hseps⟩ | ⟨hdrive, -⟩ | ⟨hunc, -⟩
    · exact hseps
    · rw [hanchor] at hdrive
      cases hdrive
    · exact absurd hanchor hunc
  unfold sepAt at hseps
  simp only [normalizePrefix, hseps, if_true]
  refine ⟨?_, ?_, rfl⟩
  · rw [NormState.text_copy, uncBase]
    split
    · simp only [NormState.text_copy, NormState.text_emit, uncServer, uncShare, List.append_assoc, List.nil_append, List.cons_append]
    · simp only [NormState.text_copy, NormState.text_emit, uncServer, uncShare, List.append_assoc, List.nil_append, List.cons_append]
  · rw [NormState.compEnds_copy]
    split
    · rw [NormState.compEnds_copy]
      rfl
    · show (NormState.copy _ _).compEnds = _
      rw [NormState.compEnds_copy]
      rfl

/-- The server that is read back from a text of nothing else. -/
theorem unc_server {server : List UInt8} (hserver : ∀ c ∈ server, fsIsSep .windows c = false) :
    uncServer ([92, 92] ++ server) = server ∧ uncShare ([92, 92] ++ server) = [] := by
  have hspan : spanName .windows (([92, 92] ++ server).drop 2) = (server, []) := spanName_name hserver
  constructor
  · rw [uncServer, hspan]
  · rw [uncShare, hspan]
    rfl

/-- The server and the share that are read back from a text. -/
theorem unc_server_share {server : List UInt8} (hserver : ∀ c ∈ server, fsIsSep .windows c = false) (rest : List UInt8) :
    uncServer ([92, 92] ++ (server ++ 92 :: rest)) = server ∧
      uncShare ([92, 92] ++ (server ++ 92 :: rest)) = (spanName .windows rest).1 := by
  have hspan : spanName .windows (([92, 92] ++ (server ++ 92 :: rest)).drop 2) = (server, 92 :: rest) :=
    spanName_append hserver rest
  constructor
  · rw [uncServer, hspan]
  · rw [uncShare, hspan, List.tail_cons]

/-- A name after a server and a share, and after a server alone, where it is read back as the share. -/
theorem uncShare_glued {server share n rest : List UInt8} (hserver : ∀ c ∈ server, fsIsSep .windows c = false)
    (hshare : ∀ c ∈ share, fsIsSep .windows c = false) (hn : IsName .windows n) (hrest : rest = [] ∨ ∃ more, rest = 92 :: more) :
    uncServer (glued .windows ([92, 92] ++ (server ++ 92 :: share)) n ++ rest) = server ∧
      uncShare (glued .windows ([92, 92] ++ (server ++ 92 :: share)) n ++ rest) = if share = [] then n else share := by
  have hspan : (spanName .windows (n ++ rest)).1 = n := by
    rcases hrest with rfl | ⟨more, rfl⟩
    · rw [List.append_nil, spanName_name hn.2]
    · rw [spanName_append hn.2]
  by_cases hnone : share = []
  · have htext : glued .windows ([92, 92] ++ (server ++ 92 :: share)) n ++ rest = [92, 92] ++ (server ++ 92 :: (n ++ rest)) := by
      rw [hnone, glued, List.getLast?_append]
      simp [fsIsSep]
    obtain ⟨hserver', hshare'⟩ := unc_server_share hserver (n ++ rest)
    rw [htext, if_pos hnone]
    exact ⟨hserver', hshare'.trans hspan⟩
  · have htext : glued .windows ([92, 92] ++ (server ++ 92 :: share)) n ++ rest
        = [92, 92] ++ (server ++ 92 :: (share ++ 92 :: (n ++ rest))) := by
      have hassoc : [92, 92] ++ (server ++ 92 :: share) = [92, 92] ++ (server ++ [92]) ++ share := by simp
      rw [hassoc, glued_of_name ⟨hnone, hshare⟩]
      simp [fsSep]
    obtain ⟨hserver', hshare'⟩ := unc_server_share hserver (share ++ 92 :: (n ++ rest))
    rw [spanName_append hshare] at hshare'
    rw [htext, if_neg hnone]
    exact ⟨hserver', hshare'⟩

/-- With a separator after the server, the server stays, and the share stays unless it is missing and a name is put in its place. -/
theorem unc_fronts_iff {server share : List UInt8} {f : Front} {s : NormState} (hserver : ∀ c ∈ server, fsIsSep .windows c = false)
    (hshare : ∀ c ∈ share, fsIsSep .windows c = false) (hs : Fronts .windows ([92, 92] ++ (server ++ 92 :: share)) f s) :
    uncServer s.text = server ∧ uncShare s.text = share ↔ (share = [] → f = .nothing) := by
  cases f with
  | nothing =>
    cases hs with
    | nothing htext _ =>
      obtain ⟨hserver', hshare'⟩ := unc_server_share hserver share
      rw [spanName_name hshare] at hshare'
      rw [htext]
      exact iff_of_true ⟨hserver', hshare'⟩ fun _ => rfl
  | up =>
    cases hs with
    | up hbase => cases hbase
  | name n depth =>
    obtain ⟨hn, hcases⟩ := hs.name_cases
    obtain ⟨rest, hrest, htext⟩ : ∃ rest, (rest = [] ∨ ∃ more, rest = 92 :: more) ∧
        s.text = glued .windows ([92, 92] ++ (server ++ 92 :: share)) n ++ rest := by
      rcases hcases with ⟨-, htext⟩ | ⟨-, more, htext⟩
      · exact ⟨[], .inl rfl, by rw [htext, List.append_nil]⟩
      · exact ⟨92 :: more, .inr ⟨more, rfl⟩, htext⟩
    obtain ⟨hserver', hshare'⟩ := uncShare_glued hserver hshare hn hrest
    rw [htext, hserver', hshare']
    by_cases hnone : share = []
    · rw [if_pos hnone, hnone]
      exact iff_of_false (fun h => hn.1 h.2) fun h => Front.noConfusion (h rfl)
    · rw [if_neg hnone]
      exact iff_of_true ⟨rfl, rfl⟩ fun h => absurd h hnone

/-- A UNC path keeps its share if it has one, and else if nothing is put in its place. -/
theorem keepsAnchor_unc_iff (mem : Nat → UInt8) {path : List UInt8} (hanchor : anchorOf path = .unc) :
    KeepsAnchor path (normalized .windows mem path).text ↔
      (uncShare path = [] → frontOf .windows true (uncRest path) = .nothing) := by
  obtain ⟨hbase, hends, hrest⟩ := normalizePrefix_unc { buf := mem } hanchor
  obtain ⟨s, hs, hfronts⟩ := fronts_normalized mem ((pathIsAbs_windows_iff path).mpr (.inl hanchor)) hends
  rw [show ({ buf := mem : NormState }.text) = [] from rfl, List.nil_append] at hbase
  rw [hbase, hrest] at hfronts
  rw [hs]
  have hunc : anchorOf s.text = .unc := by
    obtain ⟨more, hmore⟩ := hfronts.base_isPrefix
    rw [← hmore, uncBase, List.append_assoc]
    simp [anchorOf, sepAt, fsIsSep]
  have hkeeps : KeepsAnchor path s.text ↔ uncServer s.text = uncServer path ∧ uncShare s.text = uncShare path := by
    rw [KeepsAnchor, hanchor, hunc]
    simp
  rw [hkeeps]
  have hserver : ∀ c ∈ uncServer path, fsIsSep .windows c = false := fun c hc => isSep_of_mem_spanName hc
  have hshare : ∀ c ∈ uncShare path, fsIsSep .windows c = false := fun c hc => isSep_of_mem_spanName hc
  by_cases hafter : (spanName .windows (path.drop 2)).2 = []
  · -- Nothing follows the server.
    have hnoshare : uncShare path = [] := by
      rw [uncShare, hafter]
      rfl
    have hnothing : frontOf .windows true (uncRest path) = .nothing := by
      rw [uncRest, hafter]
      rfl
    rw [hnothing] at hfronts
    refine iff_of_true ?_ fun _ => hnothing
    cases hfronts with
    | nothing htext _ =>
      rw [htext, uncBase, if_pos hafter, hnoshare, List.append_nil, List.append_nil]
      exact unc_server hserver
  · have hform : uncBase path = [92, 92] ++ (uncServer path ++ 92 :: uncShare path) := by
      rw [uncBase, if_neg hafter]
      rfl
    rw [hform] at hfronts
    exact unc_fronts_iff hserver hshare hfronts

/-! ## The result -/

/-- On Windows, a call that returns true keeps the anchor of a path exactly as `AnchorStays` says. -/
theorem normalize_keepsAnchor_iff {mem : Nat → UInt8} {buf : OutArg} {path : List UInt8}
    (h : (normalizePath .windows mem buf (some path)).result = true) :
    KeepsAnchor path (normalizePath .windows mem buf (some path)).state.text ↔ AnchorStays path := by
  cases buf with
  | null bufSize => cases h
  | room bufSize =>
    rw [(state_of_result h).2]
    have hrelative : anchorOf path ≠ .unc → anchorOf path ≠ .driveAbs →
        (KeepsAnchor path (normalized .windows mem path).text ↔ (frontOf .windows false path).anchor = anchorOf path) := by
      intro hunc hdrive
      have habs : pathIsAbs .windows (some path) = false :=
        eq_false_of_ne_true fun habs => ((pathIsAbs_windows_iff path).mp habs).elim hunc hdrive
      rw [KeepsAnchor, anchorOf_relative mem habs]
      exact and_iff_left ⟨fun h => absurd h hunc, fun h => absurd h hdrive⟩
    unfold AnchorStays
    cases hanchor : anchorOf path with
    | unc => exact keepsAnchor_unc_iff mem hanchor
    | driveAbs => exact iff_of_true (keepsAnchor_drive mem hanchor) trivial
    | rooted =>
      rw [hrelative (by rw [hanchor]; decide) (by rw [hanchor]; decide), hanchor]
      exact iff_of_false Front.anchor_ne_rooted id
    | driveRel =>
      rw [hrelative (by rw [hanchor]; decide) (by rw [hanchor]; decide), hanchor]
      exact Front.anchor_eq_driveRel_iff
    | plain =>
      rw [hrelative (by rw [hanchor]; decide) (by rw [hanchor]; decide), hanchor]
      exact Front.anchor_eq_plain_iff

/-- `//s/h/../a`, which is `\\s\h\a`. -/
theorem normalize_keepsAnchor_share :
    KeepsAnchor [47, 47, 115, 47, 104, 47, 46, 46, 47, 97]
      (normalizePath .windows (fun _ => 0) (.room 11) (some [47, 47, 115, 47, 104, 47, 46, 46, 47, 97])).state.text :=
  (normalize_keepsAnchor_iff (by decide)).mpr fun h => absurd h (by decide)

/-- `/a` gives `a`, `./a:` gives `a:`, and of `//s//a` the name becomes the share. -/
theorem not_normalize_keepsAnchor :
    (normalizePath .windows (fun _ => 0) (.room 3) (some [47, 97])).result = true ∧
      (normalizePath .windows (fun _ => 0) (.room 3) (some [47, 97])).state.text = [97] ∧ ¬ KeepsAnchor [47, 97] [97] ∧
      (normalizePath .windows (fun _ => 0) (.room 5) (some [46, 47, 97, 58])).result = true ∧
      (normalizePath .windows (fun _ => 0) (.room 5) (some [46, 47, 97, 58])).state.text = [97, 58] ∧
      ¬ KeepsAnchor [46, 47, 97, 58] [97, 58] ∧
      (normalizePath .windows (fun _ => 0) (.room 7) (some [47, 47, 115, 47, 47, 97])).result = true ∧
      (normalizePath .windows (fun _ => 0) (.room 7) (some [47, 47, 115, 47, 47, 97])).state.text = [92, 92, 115, 92, 97] ∧
      ¬ KeepsAnchor [47, 47, 115, 47, 47, 97] [92, 92, 115, 92, 97] := by
  refine ⟨by decide, by decide, fun h => absurd h.1 (by decide), by decide, by decide, fun h => absurd h.1 (by decide), by decide,
    by decide, fun h => ?_⟩
  exact absurd (h.2.1 (by decide)).2 (by decide)

end Copper.Fs
