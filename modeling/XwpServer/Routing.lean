/-
  XwpServer.Routing

  The way of a request to its handler (`connection_process_request` of `connection.c`, with
  `module_process` and `upstream_process`).

  Under a configuration that `conf_parse` has returned, a request goes where the file says:
  to the first vhost element whose name begins the `Host` value, or the first of all, and in
  it to the handler of the first location element whose pattern matches the path; a request
  that no location matches gets status 400 and reaches no handler (`request_routed`).
-/

import XwpServer.VhostSelect

namespace XwpServer

open CString

/-! ## Handlers -/

def HTTP_MODULE_PROCESS_DONE : Int := 1
def HTTP_MODULE_PROCESS_UPSTREAM : Int := -1

/-- What a handler returns: its code, the request as it leaves it, and `r->upstream`, which
    is `none` for NULL and else its `process`. -/
structure Handled where
  code : Int
  r : HttpRequest
  upstream : Option (Option (HttpRequest → HttpRequest)) := none

/-- `module_t`; a `process` that is NULL is `none`. -/
structure Module where
  process : Option (HttpRequest → Handled)

/-- `module_process`; the assertion on `thiz` is at its call. -/
def moduleProcess (thiz : Module) (request : HttpRequest) : Handled :=
  match thiz.process with
  | some process => process request
  | none => ⟨HTTP_MODULE_PROCESS_DONE, request, none⟩

def upstreamProcess (thiz : Option (Option (HttpRequest → HttpRequest))) (request : HttpRequest) :
    Except Stop HttpRequest :=
  match thiz with
  | none => .error .assert
  | some (some process) => .ok (process request)
  | some none => .ok { request with status := HTTP_STATUS_BAD_GATEWAY }

/-- The end of `connection_process_request`, which calls the handler. -/
def callHandler (handler : Option Module) (r : HttpRequest) : Except Stop HttpRequest :=
  match handler with
  | none => .error .assert
  | some handler =>
      let done := moduleProcess handler r
      if done.code = HTTP_MODULE_PROCESS_DONE then .ok done.r
      else if done.code = HTTP_MODULE_PROCESS_UPSTREAM then upstreamProcess done.upstream done.r
      else .error .assert

/-! ## `connection_process_request` -/

/-- `regexec` of the pattern of a location, which is compiled from its text, on a path. -/
abbrev Regexec := (pattern path : List Byte) → Bool

/-- The loop over the locations.  A path that is NULL is read by the first `regexec`. -/
def findLocation (regexec : Regexec) (path : Option (List Byte)) :
    List (VhostLocConf Module) → Except Stop (Option (VhostLocConf Module))
  | [] => .ok none
  | loc :: locs =>
      match path with
      | none => .error .nullDeref
      | some text =>
          if regexec (loc.patternStr.getD []) text then .ok (some loc)
          else findLocation regexec path locs

/-- `connection_process_request`.  Without a vhost the log reads through the null pointer. -/
def connectionProcessRequest (regexec : Regexec) (thiz : ParsedConf Module) (r : HttpRequest) :
    Except Stop HttpRequest := do
  match ← connectionSelectVhost thiz r with
  | none => .error .nullDeref
  | some curVhost =>
      match ← findLocation regexec (r.toHeap.cstr r.url.path.data) curVhost.locs with
      | none => return { r with status := HTTP_STATUS_BAD_REQUEST }
      | some curLoc => callHandler curLoc.handler r

/-! ## Where the file sends a request -/

/-- The name of an element. -/
def elementName (node : XmlNode) : List Byte := (xmlTreeStrFirst node (bytes "name")).getD []

/-- The vhost element for a `Host` value: the first whose name begins it, or the first. -/
def vhostElement (root : XmlNode) (host : Option (List Byte)) : Option XmlNode :=
  let vhosts := root.elements (bytes "vhost")
  (host.bind fun value => vhosts.find? fun v => nameBegins value (elementName v)).or vhosts.head?

/-- The first location element whose pattern matches a path. -/
def locationElement (regexec : Regexec) (vhost : XmlNode) (path : List Byte) : Option XmlNode :=
  (vhost.elements (bytes "location")).find? fun l =>
    regexec ((xmlTreeStrFirst l (bytes "pattern")).getD []) path

/-- The `Host` value of a request. -/
def HttpRequest.hostValue (r : HttpRequest) : Option (List Byte) :=
  r.headersIn.headerHost.bind fun host => r.toHeap.cstr host.data

/-- The request gets status 400 if no location element matches, and else goes to the handler
    made for the first one that does. -/
def Routed {η : Type} (regexec : Regexec) (D : Linker η Module) (tree : Option XmlNode)
    (thiz : ParsedConf Module) (r : HttpRequest) (path : List Byte) : Prop :=
  ∃ root vhost, tree = some root ∧ vhostElement root r.hostValue = some vhost ∧
    (locationElement regexec vhost path = none →
      connectionProcessRequest regexec thiz r = .ok { r with status := HTTP_STATUS_BAD_REQUEST }) ∧
    ∀ loc, locationElement regexec vhost path = some loc →
      ∃ handler, handlerOf (modulesOf D root)
          (rootOf (xmlTreeStrFirst root (bytes "root")) vhost) loc = some handler ∧
        connectionProcessRequest regexec thiz r = callHandler (some handler) r

section Routed

variable {η : Type} {D : Linker η Module} {thiz : ParsedConf Module} {tree : Option XmlNode}

/-- What `conf_parse` returns is what the tree describes, with a first vhost. -/
theorem confParse_ret (h : confParse D tree = .ret thiz) :
    ∃ root first, tree = some root ∧ TreeAccepted D root ∧
      (confOf D root).vhosts.head? = some first ∧
      thiz = { confOf D root with defaultVhost := some first } := by
  unfold confParse at h
  cases hparse : confParseTree D tree with
  | error e =>
      rw [hparse] at h
      cases h
  | ok t =>
      rw [hparse] at h
      cases tree with
      | none => cases hparse
      | some root =>
          obtain ⟨hacc, rfl⟩ := confParseTree_ok_iff.mp hparse
          dsimp only at h
          cases hfirst : (confOf D root).vhosts.head? with
          | none =>
              rw [hfirst] at h
              cases h
          | some first =>
              rw [hfirst] at h
              cases h
              exact ⟨root, first, rfl, hacc, hfirst, rfl⟩

/-- The vhost of a request is that of its element. -/
theorem selectVhost_element {root : XmlNode} {first : VhostConf Module} {r : HttpRequest}
    (hfirst : (confOf D root).vhosts.head? = some first)
    (hhost : ∀ s, r.headersIn.headerHost = some s → (r.toHeap.cstr s.data).isSome = true) :
    connectionSelectVhost { confOf D root with defaultVhost := some first } r
      = .ok ((vhostElement root r.hostValue).map
          (vhostOf (modulesOf D root) (xmlTreeStrFirst root (bytes "root")))) := by
  have hdefault : some first = (root.elements (bytes "vhost")).head?.map
      (vhostOf (modulesOf D root) (xmlTreeStrFirst root (bytes "root"))) := by
    rw [← hfirst, confOf, List.head?_map]
  cases hheader : r.headersIn.headerHost with
  | none =>
      rw [connectionSelectVhost, hheader, vhostElement, HttpRequest.hostValue, hheader]
      show Except.ok ((some first).or (some first)) = _
      rw [Option.some_or, hdefault]
      rfl
  | some s =>
      obtain ⟨value, hvalue⟩ := Option.isSome_iff_exists.mp (hhost s hheader)
      rw [connectionSelectVhost, hheader, vhostElement, HttpRequest.hostValue, hheader]
      dsimp only [Option.bind_some]
      have hread : some value = none →
          ∀ vhost ∈ (confOf D root).vhosts.head?, vhost.nameText = [] := fun h => by cases h
      rw [hvalue, findVhost_eq hread]
      show Except.ok (Option.or _ (some first)) = _
      rw [hdefault, confOf, List.find?_map, Option.map_or]
      rfl

/-- The loop over the locations is a first match. -/
theorem findLocation_eq (regexec : Regexec) (path : List Byte)
    (locs : List (VhostLocConf Module)) :
    findLocation regexec (some path) locs
      = .ok (locs.find? fun loc => regexec (loc.patternStr.getD []) path) := by
  induction locs with
  | nil => rfl
  | cons loc locs ih =>
      rw [findLocation, List.find?_cons]
      cases regexec (loc.patternStr.getD []) path with
      | true => rfl
      | false => exact ih

/-- A request is handled where the file says, by a handler that was made. -/
theorem request_routed (regexec : Regexec) (r : HttpRequest) (path : List Byte)
    (hconf : confParse D tree = .ret thiz)
    (hhost : ∀ s, r.headersIn.headerHost = some s → (r.toHeap.cstr s.data).isSome = true)
    (hpath : r.toHeap.cstr r.url.path.data = some path) : Routed regexec D tree thiz r path := by
  obtain ⟨root, first, rfl, hacc, hfirst, rfl⟩ := confParse_ret hconf
  have hselect := selectVhost_element hfirst hhost
  have hsome : (vhostElement root r.hostValue).isSome = true := by
    have hne : (root.elements (bytes "vhost")).head?.isSome = true := by
      rw [confOf, List.head?_map] at hfirst
      obtain ⟨v, hv, -⟩ := Option.map_eq_some_iff.mp hfirst
      rw [hv]
      rfl
    rw [vhostElement, Option.isSome_or, hne, Bool.or_true]
  obtain ⟨vhost, hvhost⟩ := Option.isSome_iff_exists.mp hsome
  have hmem : vhost ∈ root.elements (bytes "vhost") := by
    rw [vhostElement, Option.or_eq_some_iff] at hvhost
    rcases hvhost with hvhost | ⟨-, hvhost⟩
    · obtain ⟨value, -, hfind⟩ := Option.bind_eq_some_iff.mp hvhost
      exact List.mem_of_find?_eq_some hfind
    · exact List.mem_of_mem_head? hvhost
  have hlocation : findLocation regexec (some path)
      (vhostOf (modulesOf D root) (xmlTreeStrFirst root (bytes "root")) vhost).locs
        = .ok ((locationElement regexec vhost path).map (locOf (modulesOf D root)
            (rootOf (xmlTreeStrFirst root (bytes "root")) vhost))) := by
    rw [findLocation_eq, vhostOf, List.find?_map]
    rfl
  refine ⟨root, vhost, rfl, hvhost, fun hloc => ?_, fun loc hloc => ?_⟩
  · rw [connectionProcessRequest, hselect, hvhost]
    show (findLocation regexec (r.toHeap.cstr r.url.path.data) _ >>= _) = _
    rw [hpath, hlocation, hloc]
    rfl
  · have hlocMem := List.mem_of_find?_eq_some hloc
    obtain ⟨handler, hhandler⟩ :=
      Option.ne_none_iff_exists'.mp ((hacc.vhosts vhost hmem).locations loc hlocMem).handler
    refine ⟨handler, hhandler, ?_⟩
    rw [connectionProcessRequest, hselect, hvhost]
    show (findLocation regexec (r.toHeap.cstr r.url.path.data) _ >>= _) = _
    rw [hpath, hlocation, hloc]
    show callHandler (handlerOf _ _ loc) r = _
    rw [hhandler]

end Routed

/-! ## A file with two vhosts -/

/-- A linker that finds a module in any file whose handlers answer with status 200. -/
def answeringLinker : Linker Unit Module where
  dlopen _ := .ok ()
  dlsym _ := .ok ⟨bytes "default", fun _ _ =>
    some ⟨some fun r => ⟨HTTP_MODULE_PROCESS_DONE, { r with status := 200 }, none⟩⟩⟩

/-- A vhost with one location. -/
def oneLocation (name pattern : List Byte) : XmlNode :=
  ⟨.normal (bytes "vhost"), [leaf (bytes "name") name,
    ⟨.normal (bytes "location"), [leaf (bytes "pattern") pattern,
      ⟨.normal (bytes "handler"), [leaf (bytes "name") (bytes "default")]⟩]⟩]⟩

def twoVhosts : XmlNode :=
  ⟨.normal (bytes "server"), [leaf (bytes "root") (bytes "/srv"),
    ⟨.normal (bytes "load_module"), [leaf (bytes "module") (bytes "default.so")]⟩,
    oneLocation (bytes "a") (bytes "/x"), oneLocation (bytes "b") (bytes "/y")]⟩

theorem request_routed_second :
    ∃ thiz, confParse answeringLinker (some twoVhosts) = .ret thiz ∧
      Routed (fun pattern path => pattern.isPrefixOf path) answeringLinker (some twoVhosts) thiz
        { headersIn := { headerHost := some (Str.serverString "b") },
          url := { path := Str.serverString "/y/z" } } (bytes "/y/z") :=
  ⟨_, rfl, request_routed _ _ _ rfl (fun s hs => by cases hs; decide) (by decide +kernel)⟩

end XwpServer
