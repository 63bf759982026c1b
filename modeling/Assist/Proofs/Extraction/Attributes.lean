import Assist.Proofs.Extraction.ComponentBody
import Assist.Proofs.Offsets.Partial
import Assist.Proofs.Signature.Names
import Assist.Proofs.Text.Search
import Mathlib.Data.List.Forall2

/-!
# The attributes of an element and the names of its component

A component destructures the names of the parameters of the function, in their order, and the
element that stands for the call has an attribute for every argument of the call, in their order.
The one list is read from the signature and the other from the call, and nothing compares them. So
the element has the attributes that its component destructures exactly if the arguments of the call
are the names of the parameters (`attributes_agree_iff`). In `attribute_of_other_argument` the
argument is a property of another object, and the component is never given the name that it
destructures.
-/

namespace Assist.Extraction

open Assist.Text Assist.Signature Assist.Syntax

/-! ## The text of an element -/

/-- The attributes of an element and its end. -/
def attributesText : List String → List Char
  | [] => ['/', '>']
  | argument :: arguments =>
    argument.toList ++ '=' :: '{' :: (argument.toList ++ '}' :: ' ' :: attributesText arguments)

theorem toList_elementText (name : String) (arguments : List String) :
    (elementText name arguments).toList =
      '<' :: (name.toList ++ ' ' :: attributesText arguments) := by
  have hattributes : attributesText arguments =
      (String.join (arguments.map fun argument =>
        argument ++ "=\x7b" ++ argument ++ "\x7d ")).toList ++ ['/', '>'] := by
    induction arguments with
    | nil => rfl
    | cons argument arguments ih =>
      rw [attributesText, ih, String.toList_join, String.toList_join]
      simp
  rw [hattributes]
  simp [elementText]

/-- Behind an equals sign among the attributes of plain names, one of these names stands in
braces. -/
theorem exists_name_behind_equals {names : List String} (h : ∀ n ∈ names, IsName n)
    {before after : List Char} (heq : attributesText names = before ++ '=' :: after) :
    ∃ n ∈ names, '{' :: (n.toList ++ ['}']) <+: after := by
  induction names generalizing before with
  | nil =>
    have hmem : '=' ∈ attributesText [] := by rw [heq]; simp
    exact absurd hmem (by decide)
  | cons n names ih =>
    obtain ⟨hn, hnames⟩ := List.forall_mem_cons.mp h
    have hequals : '=' ∉ n.toList := hn.not_mem (by decide)
    obtain ⟨gap, -, hrest⟩ := exists_append_of_not_mem hequals heq
    cases gap with
    | nil =>
      obtain ⟨-, rfl⟩ := List.cons.inj hrest
      exact ⟨n, List.mem_cons_self, ' ' :: attributesText names, by simp⟩
    | cons d gap =>
      -- the sign is behind the first attribute
      have hvalue : '=' ∉ '{' :: (n.toList ++ ['}', ' ']) := by simp [hequals]
      have htail : '{' :: (n.toList ++ ['}', ' ']) ++ attributesText names =
          gap ++ '=' :: after := by simpa using (List.cons.inj hrest).2
      obtain ⟨gap', -, hlater⟩ := exists_append_of_not_mem hvalue htail
      obtain ⟨m, hm, hprefix⟩ := ih hnames hlater
      exact ⟨m, List.mem_cons_of_mem n hm, hprefix⟩

/-- Attributes that read like those of plain names are those of the plain names. -/
theorem attributesText_inj {arguments names : List String} (h : ∀ n ∈ names, IsName n)
    (heq : attributesText arguments = attributesText names) : arguments = names := by
  have hequals : ∀ (a : String) (as : List String), '=' ∈ attributesText (a :: as) := by
    intro a as
    rw [attributesText]
    simp
  induction names generalizing arguments with
  | nil =>
    cases arguments with
    | nil => rfl
    | cons argument arguments =>
      have hmem := hequals argument arguments
      rw [heq] at hmem
      exact absurd hmem (by decide)
  | cons n names ih =>
    obtain ⟨hn, hnames⟩ := List.forall_mem_cons.mp h
    cases arguments with
    | nil =>
      have hmem := hequals n names
      rw [← heq] at hmem
      exact absurd hmem (by decide)
    | cons argument arguments =>
      have hfirst : argument = n := by
        obtain ⟨gap, hargument, hrest⟩ :=
          exists_append_of_not_mem (hn.not_mem (by decide : isNameChar '=' = false)) heq.symm
        cases gap with
        | nil => exact String.toList_inj.mp (by simpa using hargument)
        | cons d gap =>
          -- the argument starts with `n=`, but stands in the place of a name before `}`
          obtain ⟨rfl, -⟩ := List.cons.inj hrest
          obtain ⟨m, hm, tail, htail⟩ := exists_name_behind_equals h heq.symm
          have hinner : m.toList ++ '}' :: tail = n.toList ++ '=' ::
              (gap ++ '}' :: ' ' :: attributesText arguments) := by
            simpa [hargument] using (List.cons.inj htail).2
          have hclose := ((h m hm).append_inj hn (by decide) (by decide) hinner).2.1
          exact absurd hclose (by decide)
      subst hfirst
      have hrest : attributesText arguments = attributesText names := by
        have hcut := List.append_cancel_left heq
        have hvalue := List.append_cancel_left (List.cons.inj (List.cons.inj hcut).2).2
        exact (List.cons.inj (List.cons.inj hvalue).2).2
      rw [ih hnames hrest]

/-- The element of the component `name` has the attributes `attributes`, all of them plain names. -/
def HasAttributes (element name : String) (attributes : List String) : Prop :=
  (∀ n ∈ attributes, IsName n) ∧ element = elementText name attributes

instance (element name : String) (attributes : List String) :
    Decidable (HasAttributes element name attributes) :=
  inferInstanceAs (Decidable (_ ∧ _))

/-- An element whose attributes are the arguments of a call has no other attributes. -/
theorem HasAttributes.eq_of_elementText {name : String} {arguments attributes : List String}
    (h : HasAttributes (elementText name arguments) name attributes) : arguments = attributes := by
  have htext := congrArg String.toList h.2
  rw [toList_elementText, toList_elementText] at htext
  exact attributesText_inj h.1
    (List.cons.inj (List.append_cancel_left (List.cons.inj htext).2)).2

/-! ## The text of a component -/

/-- A component up to the end of the object pattern that is its parameter. -/
def parameterLead (name : String) (names : List String) : List Char :=
  ("function " ++ name ++ "(").toList ++ (objectPattern names).print.toList

/-- The component `name` destructures `names`, all of them plain names. -/
def Destructures (component name : String) (names : List String) : Prop :=
  (∀ n ∈ names, IsName n) ∧ parameterLead name names <+: trimStart component.toList

instance (component name : String) (names : List String) :
    Decidable (Destructures component name names) :=
  inferInstanceAs (Decidable (_ ∧ _))

theorem Destructures.unique {component name : String} {names names' : List String}
    (h : Destructures component name names) (h' : Destructures component name names') :
    names = names' := by
  obtain ⟨hnames, rest, hrest⟩ := h
  obtain ⟨hnames', rest', hrest'⟩ := h'
  rw [← hrest', parameterLead, parameterLead, List.append_assoc, List.append_assoc] at hrest
  exact objectPattern_inj hnames hnames' (List.append_cancel_left hrest)

/-- The header of a declaration with an empty body ends with the brace. -/
theorem openHeader?_append (front : List Char) :
    openHeader? (front ++ [' ', '{', ' ', '}']) = some (front ++ [' ', '{']) := by
  have hprinted : front ++ [' ', '{', ' ', '}'] = front ++ [' ', '{', ' '] ++ ['}'] := by simp
  have hstrip : stripEnd? ['}'] (front ++ [' ', '{', ' '] ++ ['}']) =
      some (front ++ [' ', '{', ' ']) := stripEnd?_eq_some_iff.mpr rfl
  have htrim : trimEnd (front ++ [' ', '{', ' ']) = front ++ [' ', '{'] := by
    have hblank := trimEnd_append_of_blank (by decide : allBlank [' '] = true)
      (front ++ [' ', '{'])
    have hbrace := trimEnd_concat (by decide : isBlank '{' = false) (front ++ [' '])
    simp only [List.append_assoc, List.cons_append, List.nil_append] at hblank hbrace
    rw [hblank, hbrace]
  rw [openHeader?, hprinted, trimEnd_concat (by decide), hstrip]
  simp [htrim, guard]

/-- The header of a component is its name, the pattern of its parameter and more, up to a brace. -/
theorem exists_header_componentOf {layout : Layout} {name : String} {function : FunctionDecl}
    {names : List String} {header : List Char}
    (h : openHeader? ((componentOf name function names).print layout).toList = some header) :
    ∃ rest, header = parameterLead name names ++ rest := by
  have hprint : ((componentOf name function names).print layout).toList =
      parameterLead name names ++ (": " ++ TypeExpr.print layout 0 (.literal (names.zipWith
          (fun name parameter => .mk name parameter.optional parameter.type?)
            function.parameters)) ++ ")" ++
        function.returnType.elim "" (": " ++ TypeExpr.print layout 0 ·)).toList ++
          [' ', '{', ' ', '}'] := by
    simp only [FunctionDecl.print, componentOf, printBody, parameterLead, objectPattern]
    cases function.returnType <;> simp [Parameter.print]
  rw [hprint, openHeader?_append, Option.some.injEq, List.append_assoc] at h
  exact ⟨_, h.symm⟩

/-- The text of a component starts, blanks apart, with its header. -/
theorem parameterLead_prefix_of_header {layout : Layout} {name : String} {function : FunctionDecl}
    {names : List String} {header : List Char}
    (h : openHeader? ((componentOf name function names).print layout).toList = some header)
    {blanks : List Char} (hblanks : allBlank blanks = true) (body : List Char) :
    parameterLead name names <+:
      trimStart (String.ofList (blanks ++ header ++ '\n' :: body)).toList := by
  obtain ⟨rest, rfl⟩ := exists_header_componentOf h
  refine ⟨rest ++ '\n' :: body, ?_⟩
  have hhead : ∃ tail, parameterLead name names = 'f' :: tail := by
    rw [parameterLead, String.toList_append, String.toList_append]
    exact ⟨_, rfl⟩
  obtain ⟨tail, htail⟩ := hhead
  rw [String.toList_ofList, List.append_assoc, trimStart_append_of_blank hblanks, htail,
    List.append_assoc, List.cons_append, trimStart_cons (by decide)]

/-- A component destructures the names that its header was made from. -/
theorem destructures_of_header {layout : Layout} {name : String} {function : FunctionDecl}
    {names : List String} {header : List Char} (hnames : ∀ n ∈ names, IsName n)
    (h : openHeader? ((componentOf name function names).print layout).toList = some header)
    (text body : List Char) :
    Destructures (String.ofList (leadingBlank text ++ header ++ '\n' :: body)) name names :=
  ⟨hnames, parameterLead_prefix_of_header h List.all_takeWhile body⟩

/-! ## What a component is made from -/

/-- The plain names of parameters are what they bind, in order. -/
theorem map_name_of_plainNames {parameters : List Parameter} {names : List String}
    (h : plainNames parameters = .ok names) :
    parameters.map Parameter.name = names.map Binding.identifier := by
  have hnames : List.Forall₂ (fun p name => p.name = .identifier name) parameters names := by
    refine (Offsets.forall₂_of_mapM h).imp fun p name hname => ?_
    cases hp : p.name <;> simp [hp, Binding.identifier?] at hname
    rw [hname]
  rw [← List.forall₂_eq_eq_eq, List.forall₂_map_left_iff, List.forall₂_map_right_iff]
  exact hnames

variable {σ : Type} {edits : Request → StateM σ (Option EditInfo)} {tree : Tree}
  {request : Request} {s s' : σ}

/-- **Attributes and destructured names.** A request for a component that does not fail has an edit,
with an element and a component of one name. The component destructures the names of the parameters
of the function, in order, and the element is made from the arguments of the call, in order. So
there are names that are both the attributes and the destructured names exactly if the arguments are
the names of the parameters. -/
theorem attributes_agree_iff {origin : String} {result : Option EditInfo}
    (haction : Variant.ofActionName? request.actionName = some (origin, .component))
    (h : Yields (requestedEdit (Host.standard edits) tree request) s result s') :
    ∃ info answer file script function names arguments name element component,
      result = some info ∧ HostEdit edits request s .component answer file script ∧
      FunctionDecl.ofText? (String.ofList (firstLine (trimStart script.body.newText.toList))) =
        some function ∧
      function.parameters.map Parameter.name = names.map Binding.identifier ∧
      argumentsOf? script.callSite.newText = some arguments ∧
      info.edits = [⟨file.fileName, script.leading ++
        [{ script.callSite with newText := element },
          { script.body with newText := component }]⟩] ∧
      element = elementText name arguments ∧ Destructures component name names ∧
      ((∃ shared, HasAttributes element name shared ∧ Destructures component name shared) ↔
        arguments = names) := by
  cases result with
  | none =>
    rw [(yields_requestedEdit_none.mp h).1] at haction
    cases haction
  | some info =>
    obtain ⟨variant, answer, file, script, s₁, hhost, h⟩ := exists_hostEdit h
    obtain ⟨origin', -, haction', -⟩ := hhost.asked
    rw [haction, Option.some.injEq, Prod.mk.injEq] at haction'
    obtain ⟨rfl, rfl⟩ := haction'
    rw [if_pos rfl] at h
    obtain ⟨used, name, header, arguments, renameAt, s₂, -, -, hheader, harguments, -, rfl⟩ :=
      yields_componentEdit.mp h
    obtain ⟨function, names, printed, s₃, hread, hnames, hwrite, hopen⟩ :=
      yields_headerOfComponent.mp hheader
    -- the standard host reads and writes signatures like the library
    have hfunction := congrArg Prod.fst hread
    have hprinted : (componentOf name function names).print request.layout = printed :=
      congrArg Prod.fst hwrite
    have hnames' := map_name_of_plainNames hnames
    have hplain : ∀ n ∈ names, IsName n := by
      intro n hn
      have hmem : Binding.identifier n ∈ function.parameters.map Parameter.name := by
        rw [hnames']
        exact List.mem_map_of_mem hn
      obtain ⟨p, hp, hpn⟩ := List.mem_map.mp hmem
      exact isName_of_ofText? hfunction hp hpn
    rw [← hprinted] at hopen
    have hcomponent := destructures_of_header hplain hopen script.body.newText.toList
      (laterLines (trimStart script.body.newText.toList))
    refine ⟨_, answer, file, script, function, names, arguments, name, _, _, rfl, hhost, hfunction,
      hnames', harguments, rfl, rfl, hcomponent, ?_⟩
    constructor
    · rintro ⟨shared, helement, hshared⟩
      rw [helement.eq_of_elementText, hcomponent.unique hshared]
    · intro hagree
      exact ⟨names, ⟨hplain, by rw [hagree]⟩, hcomponent⟩

/-- The text of a function with a parameter. -/
def titleFunction : String :=
  "\nfunction newFunction(title: string) \x7b\n    return title;\n\x7d\n"

/-- The changes that turn it into a component and its call into the given element. -/
def titleElement (element : String) : Script :=
  ⟨[], ⟨⟨12, 5⟩, element⟩,
    ⟨⟨19, 0⟩, "\nfunction ExtractedComponent(\x7b title \x7d: \x7b\n    title: string;\n\x7d) \x7b\n"
      ++ "    return title;\n\x7d\n"⟩⟩

theorem attributes_agree_title :
    ∃ file script name element component,
      HostEdit (sumHost [] "newFunction(title)" titleFunction).edits (sumRequest .component) ()
        .component ⟨[file], none, none⟩ file script ∧
      (sumEdit .component (titleElement "<ExtractedComponent title=\x7btitle\x7d />") 13).edits =
        [⟨file.fileName, script.leading ++
          [{ script.callSite with newText := element },
            { script.body with newText := component }]⟩] ∧
      ∃ shared, HasAttributes element name shared ∧ Destructures component name shared := by
  have haction : Variant.ofActionName? (sumRequest .component).actionName =
      some ("function_scope_0", .component) := by decide +kernel
  have h : Yields (requestedEdit (sumHost [] "newFunction(title)" titleFunction) sumTree
      (sumRequest .component)) () (some (sumEdit .component
        (titleElement "<ExtractedComponent title=\x7btitle\x7d />") 13)) () := by decide +kernel
  obtain ⟨info, answer, file, script, function, names, arguments, name, element, component, hinfo,
    hhost, hread, hnames, harguments, hedits, -, -, hagree⟩ := attributes_agree_iff haction h
  cases hinfo
  have hsum := hostEdit_sum .component [] "newFunction(title)" titleFunction
  obtain ⟨-, rfl, rfl, rfl⟩ := hsum.unique hhost
  -- the parameters and the arguments of the sample
  have hparameters : ((FunctionDecl.ofText? (String.ofList (firstLine
      (trimStart titleFunction.toList)))).map fun function =>
        function.parameters.map Parameter.name) = some (["title"].map Binding.identifier) := by
    decide +kernel
  have hcall : argumentsOf? "newFunction(title)" = some ["title"] := by decide +kernel
  have hnames' : names = ["title"] := by
    have hfunction : FunctionDecl.ofText? (String.ofList (firstLine
        (trimStart titleFunction.toList))) = some function := hread
    rw [hfunction, Option.map_some, Option.some.injEq, hnames] at hparameters
    exact (List.map_inj_right fun n m hnm => Binding.identifier.inj hnm).mp hparameters
  have harguments' : arguments = ["title"] := Option.some.inj (harguments.symm.trans hcall)
  exact ⟨_, _, name, element, component, hsum, hedits, hagree.mpr (harguments'.trans hnames'.symm)⟩

/-- The changes for a call that gives the parameter a property. -/
def propsElement : Script := titleElement "<ExtractedComponent props.title=\x7bprops.title\x7d />"

/-- The argument of the call is not the name of the parameter, and the component destructures a name
that is no attribute of the element. -/
theorem attribute_of_other_argument :
    Variant.ofActionName? (sumRequest .component).actionName =
        some ("function_scope_0", .component) ∧
      Yields (requestedEdit (sumHost [] "newFunction(props.title)" titleFunction) sumTree
        (sumRequest .component)) () (some (sumEdit .component propsElement 13)) () ∧
      Destructures propsElement.body.newText "ExtractedComponent" ["title"] ∧
      ¬∃ shared, HasAttributes propsElement.callSite.newText "ExtractedComponent" shared ∧
        Destructures propsElement.body.newText "ExtractedComponent" shared := by
  have hcomponent : Destructures propsElement.body.newText "ExtractedComponent" ["title"] := by
    decide +kernel
  refine ⟨by decide +kernel, by decide +kernel, hcomponent, ?_⟩
  rintro ⟨shared, helement, hshared⟩
  rw [← hcomponent.unique hshared] at helement
  exact absurd helement (by decide +kernel)

end Assist.Extraction
