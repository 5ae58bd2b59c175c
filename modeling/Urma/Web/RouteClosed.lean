import Mathlib.Data.List.Nodup
import Urma.Web.PackageCodec
import Urma.Web.Route

/-!
# Routes stay within the declared set

The grammar of the declared paths decides what a target can reach: what is served is declared, and
a redirect goes to the directory it names, once.
-/

namespace Urma.Web

/-! ## The grammar of a path -/

/-- A segment of a declared path. -/
structure Segment (segment : Bytes) : Prop where
  nonempty : segment ≠ []
  notDots : segment ≠ ascii "." ∧ segment ≠ ascii ".."
  unreserved : ∀ byte ∈ segment, isAlphanumeric byte = true ∨ byte ∈ ascii "._~-"

theorem validateSegment_eq_ok {path : Text} {segment : Bytes} {u : Unit} :
    validateSegment path segment = .ok u ↔ Segment segment := by
  simp only [validateSegment, Except.bind_eq_ok, ensureWeb_eq_ok, Bool.and_eq_true, bne_iff_ne,
    Bool.not_eq_true', List.isEmpty_eq_false_iff, List.all_eq_true, Bool.or_eq_true,
    List.contains_iff_mem]
  constructor
  · intro h
    obtain ⟨_, hnonempty, _, hdots, hunreserved⟩ := h
    exact ⟨hnonempty, hdots, hunreserved⟩
  · intro h
    exact ⟨(), h.nonempty, (), h.notDots, h.unreserved⟩

/-- What `validate_path` accepts. -/
theorem validatePath_eq_ok {path : Text} {u : Unit} :
    validatePath path = .ok u ↔ (1 ≤ path.len ∧ path.len ≤ Grammar.maxPathBytes) ∧
      ∀ segment ∈ path.bytes.splitOn 47, Segment segment := by
  simp only [validatePath, Except.bind_eq_ok, ensureWeb_eq_ok, Bool.and_eq_true, decide_eq_true_eq,
    Except.forM_eq_ok, validateSegment_eq_ok]
  constructor
  · intro h
    obtain ⟨_, hlength, hsegments⟩ := h
    exact ⟨hlength, hsegments⟩
  · intro h
    exact ⟨(), h⟩

/-- A path in segments does not start with a slash. -/
theorem head_ne_slash {path : Bytes} (h : ∀ segment ∈ path.splitOn 47, Segment segment) :
    path.head? ≠ some 47 := by
  intro hhead
  cases path with
  | nil => cases hhead
  | cons first rest =>
      cases hhead
      have hsplit : ((47 : UInt8) :: rest).splitOn 47 = [] :: rest.splitOn 47 :=
        List.splitOn_append_cons_self [] rest
      have hempty := h [] (by rw [hsplit]; exact List.mem_cons_self)
      exact hempty.nonempty rfl

/-- A path in segments does not end with one. -/
theorem getLast_ne_slash {path : Bytes} (h : ∀ segment ∈ path.splitOn 47, Segment segment) :
    path.getLast? ≠ some 47 := by
  intro hlast
  obtain ⟨front, rfl⟩ := List.getLast?_eq_some_iff.mp hlast
  have hsplit : (front ++ [47]).splitOn 47 = front.splitOn 47 ++ [[]] :=
    List.splitOn_append_cons_self front []
  have hempty := h [] (by rw [hsplit]; exact List.mem_append_right _ List.mem_cons_self)
  exact hempty.nonempty rfl

/-- The directory of a file in segments is in segments. -/
theorem segments_of_append {path file : Bytes}
    (h : ∀ segment ∈ (path ++ 47 :: file).splitOn 47, Segment segment) :
    ∀ segment ∈ path.splitOn 47, Segment segment := by
  intro segment hmem
  apply h
  rw [List.splitOn_append_cons_self]
  exact List.mem_append_left _ hmem

/-! ## What is wanted -/

/-- The path of a declared resource, asked for by itself. -/
theorem wanted_slash {path : Text} (hvalid : validatePath path = .ok ()) :
    wanted (slash.append path) = .path path.bytes := by
  obtain ⟨⟨hlength, _⟩, hsegments⟩ := validatePath_eq_ok.mp hvalid
  have hne : path.bytes.isEmpty = false := by
    rw [List.isEmpty_eq_false_iff, ← List.length_pos_iff]
    exact hlength
  show (if path.bytes.isEmpty then Wanted.entry
    else if path.bytes.getLast? = some 47 then .path (path.bytes ++ ascii "index.html")
    else .path path.bytes) = _
  rw [hne, if_neg Bool.false_ne_true, if_neg (getLast_ne_slash hsegments)]

/-- A path that ends with a slash asks for the index of a directory, or for the entry. -/
theorem wanted_directory {path : Text} (hne : path.bytes ≠ []) :
    wanted (path.append slash) = .unresolvable ∨
      ∃ relative, path.bytes = 47 :: relative ∧
        wanted (path.append slash) = .path (relative ++ 47 :: ascii "index.html") := by
  rw [wanted, Text.bytes_append]
  cases hbytes : path.bytes with
  | nil => exact absurd hbytes hne
  | cons first relative =>
      by_cases hfirst : first = 47
      · subst hfirst
        right
        refine ⟨relative, rfl, ?_⟩
        show (if (relative ++ [47]).isEmpty then Wanted.entry
          else if (relative ++ [47]).getLast? = some 47 then
            .path (relative ++ [47] ++ ascii "index.html")
          else .path (relative ++ [47])) = _
        rw [if_neg (by simp), if_pos (by simp), List.append_assoc]
        rfl
      · left
        rw [List.cons_append]
        split
        · next hcons =>
            exact absurd (List.cons.inj hcons).1 hfirst
        · rfl

/-! ## Resolution -/

namespace Resource

/-- The path a resource is declared at. -/
def path : Resource → Option Text
  | .file entry => some entry.path
  | .pinned pin => some pin.path
  | .undeclared => none

end Resource

namespace Package

variable {sha256 : Bytes → Bytes32} {package : Package} {path : Text}

/-- A resource of the package. -/
def Declares (package : Package) (resource : Resource) : Prop :=
  (∃ file ∈ package.files, resource = .file file) ∨ ∃ pin ∈ package.pinned, resource = .pinned pin

/-- What is declared has a grammatical path. -/
theorem Valid.path_valid (h : Valid sha256 package) {resource : Resource}
    (hdeclares : Declares package resource) (hpath : resource.path = some path) :
    validatePath path = .ok () := by
  rcases hdeclares with ⟨file, hfile, rfl⟩ | ⟨pin, hpin, rfl⟩
  · cases hpath
    exact (h.file file hfile).1
  · cases hpath
    exact (h.pin pin hpin).1

/-- What resolves is declared. -/
theorem declares_resolve (h : package.resolve path ≠ .undeclared) :
    Declares package (package.resolve path) := by
  rw [resolve] at h ⊢
  cases hwanted : wanted path with
  | unresolvable => exact absurd (by rw [hwanted]) h
  | entry =>
      simp only [hwanted] at h ⊢
      cases hentry : package.files[package.entry]? with
      | none => exact absurd (by rw [hentry]) h
      | some entry => exact Or.inl ⟨entry, List.mem_of_getElem? hentry, rfl⟩
  | path wantedPath =>
      simp only [hwanted] at h ⊢
      cases hfile : package.files.find? fun file => file.path.bytes == wantedPath with
      | some file => exact Or.inl ⟨file, List.mem_of_find?_eq_some hfile, rfl⟩
      | none =>
          simp only [hfile] at h ⊢
          cases hpin : package.pinned.find? fun pin => pin.path.bytes == wantedPath with
          | some pin => exact Or.inr ⟨pin, List.mem_of_find?_eq_some hpin, rfl⟩
          | none => exact absurd (by rw [hpin]) h

/-- A path that resolves as one is declared. -/
theorem valid_of_resolve (h : Valid sha256 package) {wantedPath : Bytes}
    (hwanted : wanted path = .path wantedPath) (hresolve : package.resolve path ≠ .undeclared) :
    ∃ declared : Text, declared.bytes = wantedPath ∧ validatePath declared = .ok () := by
  rw [resolve, hwanted] at hresolve
  simp only at hresolve
  cases hfile : package.files.find? fun file => file.path.bytes == wantedPath with
  | some file =>
      have hfound := List.find?_some hfile
      exact ⟨file.path, beq_iff_eq.mp hfound, (h.file file (List.mem_of_find?_eq_some hfile)).1⟩
  | none =>
      simp only [hfile] at hresolve
      cases hpin : package.pinned.find? fun pin => pin.path.bytes == wantedPath with
      | some pin =>
          have hfound := List.find?_some hpin
          exact ⟨pin.path, beq_iff_eq.mp hfound, (h.pin pin (List.mem_of_find?_eq_some hpin)).1⟩
      | none => exact absurd (by rw [hpin]) hresolve

/-- Of items with distinct paths, each is found by its path. -/
theorem find?_path {α : Type} {itemPath : α → Text} {items : List α} {item : α}
    (hnodup : (items.map itemPath).Nodup) (hmem : item ∈ items) :
    items.find? (fun other => (itemPath other).bytes == (itemPath item).bytes) = some item := by
  cases hfind : items.find? fun other => (itemPath other).bytes == (itemPath item).bytes with
  | none =>
      have hnone := List.find?_eq_none.mp hfind item hmem
      exact absurd (beq_self_eq_true _) hnone
  | some found =>
      have hbytes := List.find?_some hfind
      have hsame : itemPath found = itemPath item := Text.ext_bytes (beq_iff_eq.mp hbytes)
      rw [List.inj_on_of_nodup_map hnodup (List.mem_of_find?_eq_some hfind) hmem hsame]

/-- **A declared resource is what its own path resolves to**: the paths are distinct. -/
theorem resolve_slash (h : Valid sha256 package) {resource : Resource}
    (hdeclares : Declares package resource) (hpath : resource.path = some path) :
    package.resolve (slash.append path) = resource := by
  obtain ⟨hfiles, hpins, hapart⟩ := List.nodup_append.mp h.distinct
  rw [resolve, wanted_slash (h.path_valid hdeclares hpath)]
  rcases hdeclares with ⟨file, hfile, rfl⟩ | ⟨pin, hpin, rfl⟩
  · cases hpath
    simp only [find?_path hfiles hfile]
  · cases hpath
    have hnone : package.files.find? (fun file => file.path.bytes == pin.path.bytes) = none := by
      rw [List.find?_eq_none]
      intro file hfile heq
      exact hapart file.path (List.mem_map_of_mem hfile) pin.path (List.mem_map_of_mem hpin)
        (Text.ext_bytes (beq_iff_eq.mp heq))
    simp only [hnone, find?_path hpins hpin]

end Package

/-! ## Lookups -/

section Lookup

variable {sha256 : Bytes → Bytes32} {package : Package} {path declared : Text}

/-- What a lookup finds. -/
theorem lookup_eq_declared :
    lookup package path = .declared declared ↔
      Route.reserved.isPrefixOf path.bytes = false ∧
        (package.resolve path).path = some declared := by
  rw [lookup]
  cases hreserved : Route.reserved.isPrefixOf path.bytes with
  | true =>
      rw [if_pos rfl]
      constructor
      · intro h
        cases h
      · intro h
        cases h.1
  | false =>
      rw [if_neg Bool.false_ne_true]
      cases package.resolve path with
      | file file => simp [Resource.path]
      | pinned pin => simp [Resource.path]
      | undeclared => simp [Resource.path]

theorem lookup_reserved (h : Route.reserved.isPrefixOf path.bytes = true) :
    lookup package path = .absent :=
  if_pos h

theorem lookup_undeclared (h : package.resolve path = .undeclared) :
    lookup package path = .absent := by
  rw [lookup, h]
  split
  · rfl
  · rfl

/-- **A declared directory** is a path of segments between two slashes. -/
theorem directory_of_lookup (h : Package.Valid sha256 package) (hne : path.bytes ≠ [])
    (hlookup : lookup package (path.append slash) = .declared declared) :
    ∃ relative : Bytes, path.bytes = 47 :: relative ∧
      ∀ segment ∈ relative.splitOn 47, Segment segment := by
  obtain ⟨_, hpath⟩ := lookup_eq_declared.mp hlookup
  have hresolve : package.resolve (path.append slash) ≠ .undeclared := by
    intro hundeclared
    rw [hundeclared] at hpath
    cases hpath
  rcases wanted_directory hne with hwanted | ⟨relative, hrelative, hwanted⟩
  · exact absurd (by rw [Package.resolve, hwanted]) hresolve
  · obtain ⟨file, hfile, hvalid⟩ := Package.valid_of_resolve h hwanted hresolve
    have hsegments := (validatePath_eq_ok.mp hvalid).2
    rw [hfile] at hsegments
    exact ⟨relative, hrelative, segments_of_append hsegments⟩

end Lookup

/-! ## Routes -/

section Route

variable {sha256 : Bytes → Bytes32} {package : Package} {target : Text}

/-- The path of a target. -/
def targetPath (target : Text) : Text :=
  (splitTarget target).1

/-- The query and the fragment of a target. -/
def targetQuery (target : Text) : Text :=
  (splitTarget target).2

/-- The query starts where the path ends. -/
theorem endsPath_of_query {byte : UInt8} (h : (targetQuery target).bytes.head? = some byte) :
    endsPath byte = true := by
  have hdrop : target.bytes.dropWhile (!endsPath ·) = (targetQuery target).bytes := rfl
  have hne : target.bytes.dropWhile (!endsPath ·) ≠ [] := by
    intro hnil
    rw [← hdrop, hnil] at h
    cases h
  have hhead := List.head_dropWhile_not (!endsPath ·) hne
  rw [← hdrop, List.head?_eq_some_head hne] at h
  rw [Option.some.inj h, Bool.not_eq_false'] at hhead
  exact hhead

/-- **The target of a redirect** is split where the request was: at its query. -/
theorem split_redirect :
    splitTarget (((targetPath target).append slash).append (targetQuery target)) =
      ((targetPath target).append slash, targetQuery target) := by
  apply Text.cutAt_eq_of_append
  · intro byte hmem
    rw [Text.bytes_append] at hmem
    rcases List.mem_append.mp hmem with hmem | hmem
    · exact Text.not_stop_of_mem_cutAt hmem
    · rw [List.mem_singleton.mp hmem]
      rfl
  · intro byte hbyte
    exact endsPath_of_query hbyte

/-- What a route is, by the lookup of the path and, where that is absent, of the directory. -/
theorem route_eq :
    route package target =
      match lookup package (targetPath target) with
      | .declared declared => .serve declared
      | .absent =>
          if (targetPath target).bytes.isEmpty || (targetPath target).bytes.getLast? == some 47 then
            .undeclared
          else
            match lookup package ((targetPath target).append slash) with
            | .declared _ => .redirect (((targetPath target).append slash).append
                (targetQuery target))
            | .absent => .undeclared := rfl

theorem route_serve {path : Text} (h : route package target = .serve path) :
    lookup package (targetPath target) = .declared path := by
  rw [route_eq] at h
  cases hlookup : lookup package (targetPath target) with
  | declared declared =>
      rw [hlookup] at h
      cases h
      rfl
  | absent =>
      simp only [hlookup] at h
      split at h
      · cases h
      · split at h
        · cases h
        · cases h

/-- A redirect is to the directory of the path, which is declared. -/
theorem route_redirect {redirected : Text} (h : route package target = .redirect redirected) :
    (targetPath target).bytes ≠ [] ∧
      redirected = ((targetPath target).append slash).append (targetQuery target) ∧
      ∃ declared, lookup package ((targetPath target).append slash) = .declared declared := by
  rw [route_eq] at h
  cases hlookup : lookup package (targetPath target) with
  | declared declared =>
      rw [hlookup] at h
      cases h
  | absent =>
      simp only [hlookup] at h
      split at h
      · cases h
      · next hpath =>
          rw [Bool.or_eq_true, not_or, List.isEmpty_iff] at hpath
          split at h
          · next declared hdirectory =>
              cases h
              exact ⟨hpath.1, rfl, declared, hdirectory⟩
          · cases h

/-- The target of a redirect is served. -/
theorem route_of_redirect {redirected : Text} (h : route package target = .redirect redirected) :
    ∃ declared, route package redirected = .serve declared := by
  obtain ⟨_, rfl, declared, hlookup⟩ := route_redirect h
  refine ⟨declared, ?_⟩
  rw [route_eq, targetPath, split_redirect, hlookup]

/-- A path under the reserved one stays there with a slash at its end. -/
theorem reserved_append (h : Route.reserved.isPrefixOf (targetPath target).bytes = true) :
    Route.reserved.isPrefixOf ((targetPath target).append slash).bytes = true := by
  rw [List.isPrefixOf_iff_prefix] at h ⊢
  exact h.trans (List.prefix_append _ _)

theorem route_undeclared (h : lookup package (targetPath target) = .absent)
    (hdirectory : lookup package ((targetPath target).append slash) = .absent) :
    route package target = .undeclared := by
  rw [route_eq, h, hdirectory]
  simp only
  split
  · rfl
  · rfl

/-- **Routing is closed over the declared set.** What is served is declared, and its own path
resolves to it. A redirect keeps the query and goes to a path of segments after a single slash,
where it is served. What is reserved or not declared is refused. -/
theorem routing_closed (sha256 : Bytes → Bytes32) (package : Package)
    (hvalidate : package.validate sha256 = .ok ()) (target : Text) :
    (∀ path, route package target = .serve path →
      ∃ resource, package.resolve (targetPath target) = resource ∧ package.Declares resource ∧
        resource.path = some path ∧ package.resolve (slash.append path) = resource) ∧
    (∀ redirected, route package target = .redirect redirected →
      targetQuery redirected = targetQuery target ∧
      (∃ relative : Bytes, (targetPath redirected).bytes = 47 :: relative ++ [47] ∧
        ∀ segment ∈ relative.splitOn 47, Segment segment) ∧
      ∃ path, route package redirected = .serve path) ∧
    (Route.reserved.isPrefixOf (targetPath target).bytes = true →
      route package target = .undeclared) ∧
    (package.resolve (targetPath target) = .undeclared →
      package.resolve ((targetPath target).append slash) = .undeclared →
      route package target = .undeclared) := by
  have hvalid := Package.validate_eq_ok.mp hvalidate
  refine ⟨?_, ?_, ?_, ?_⟩
  · intro path hserve
    obtain ⟨_, hpath⟩ := lookup_eq_declared.mp (route_serve hserve)
    have hresolve : package.resolve (targetPath target) ≠ .undeclared := by
      intro hundeclared
      rw [hundeclared] at hpath
      cases hpath
    have hdeclares := Package.declares_resolve hresolve
    exact ⟨_, rfl, hdeclares, hpath, Package.resolve_slash hvalid hdeclares hpath⟩
  · intro redirected hredirect
    obtain ⟨hne, hredirected, declared, hlookup⟩ := route_redirect hredirect
    obtain ⟨relative, hrelative, hsegments⟩ := directory_of_lookup hvalid hne hlookup
    refine ⟨?_, ⟨relative, ?_, hsegments⟩, route_of_redirect hredirect⟩
    · rw [hredirected, targetQuery, split_redirect]
    · rw [hredirected, targetPath, split_redirect, Text.bytes_append, hrelative]
      rfl
  · intro hreserved
    exact route_undeclared (lookup_reserved hreserved) (lookup_reserved (reserved_append hreserved))
  · intro hpath hdirectory
    exact route_undeclared (lookup_undeclared hpath) (lookup_undeclared hdirectory)

end Route

/-- The site of one page: its page by the root, and under its own path. -/
theorem routing_closed_site :
    (∀ target path, route Sample.site target = .serve path →
      ∃ resource, Sample.site.resolve (targetPath target) = resource ∧
        Sample.site.Declares resource ∧ resource.path = some path ∧
        Sample.site.resolve (slash.append path) = resource) ∧
    route Sample.site slash = .serve Sample.indexPath :=
  ⟨fun target => (routing_closed Lib.Sha256.hash Sample.site
    (Package.validate_eq_ok.mpr (Package.build_valid Sample.build_site)) target).1, by decide⟩

end Urma.Web
