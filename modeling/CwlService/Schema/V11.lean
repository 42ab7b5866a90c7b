import CwlService.Schema.V10

/-! # Version 1.1

Types that are as in version 1.0 are taken from there. What a later version changes is left
open. -/
namespace CwlService.Schema.V11

open V10 (primitiveType anyType fileType expressionType inlineJavascriptRequirement environmentDef stdout stderr
  dockerRequirement softwareRequirement dirent envVarRequirement shellCommandRequirement
  subworkflowFeatureRequirement scatterFeatureRequirement multipleInputFeatureRequirement
  stepInputExpressionRequirement linkMergeMethod scatterMethod)

def parameterFields : List SchemaField := [
  .optionalText "label",
  .plain "secondaryFiles" (optionalMany "SecondaryFileSchema"),
  .flag "streamable",
  .texts "doc",
  .optionalText "id"]

def processFields (inputs outputs : Schema) (requirements : List Schema) : List SchemaField := [
  .optionalText "id",
  .optionalText "label",
  .texts "doc",
  .parameters "inputs" inputs,
  .parameters "outputs" outputs,
  .requirements requirements,
  .hints,
  .plain "cwlVersion" (optional "CWLVersion"),
  .text "class"]

def requirementNames : List Schema := [
  "InlineJavascriptRequirement", "SchemaDefRequirement", "LoadListingRequirement",
  "DockerRequirement", "SoftwareRequirement", "InitialWorkDirRequirement", "EnvVarRequirement",
  "ShellCommandRequirement", "ResourceRequirement", "WorkReuse", "NetworkAccess",
  "InplaceUpdateRequirement", "ToolTimeLimit", "SubworkflowFeatureRequirement",
  "ScatterFeatureRequirement", "MultipleInputFeatureRequirement", "StepInputExpressionRequirement"]

def describedFields : List SchemaField := [.optionalText "label", .texts "doc", .optionalText "name"]

def loadFields : List SchemaField :=
  [.flag "loadContents", .plain "loadListing" (optional "LoadListingEnum")]

def recordMark : String := "enum_d9cba076fca539106791a4f46d198c7fcfbdb779"

def enumMark : String := "enum_d961d79c225752b9fadb617367615ab176b47d77"

def arrayMark : String := "enum_d062602be0b4b8fd33e69e29a841317b6ab665bc"

def recordSchema : Schema := recordOf "RecordSchema" [] "RecordField" (symbolic recordMark [] ["record"]) []

def enumSchema : Schema :=
  documented "EnumSchema" [] [.plain "symbols" (.array "string"), .plain "type" (symbolic enumMark [] ["enum"])]

def arraySchema : Schema := arrayOf "ArraySchema" [] plainKinds (symbolic arrayMark [] ["array"]) []

def memberFields (types kinds : List Schema) : List SchemaField :=
  [.texts "doc", .text "name", .plain "type" (defining types kinds)]

def recordField : Schema :=
  documented "RecordField" ["Documented"] (memberFields [
    "PrimitiveType", recordSchema, enumSchema, arraySchema] plainKinds)

def loadListingEnum : Schema :=
  symbolic "LoadListingEnum" [] ["no_listing", "shallow_listing", "deep_listing"]

def inputBinding : Schema := undocumented "InputBinding" [] [.flag "loadContents"]

def inputRecordSchema : Schema :=
  recordOf "InputRecordSchema" ["RecordSchema", "InputSchema"] "InputRecordField" recordMark describedFields

def inputEnumSchema : Schema := enumOf "InputEnumSchema" ["EnumSchema", "InputSchema"] enumMark describedFields

def inputArraySchema : Schema :=
  arrayOf "InputArraySchema" ["ArraySchema", "InputSchema"] inputKinds arrayMark describedFields

def outputRecordSchema : Schema :=
  recordOf "OutputRecordSchema" ["RecordSchema", "OutputSchema"] "OutputRecordField" recordMark describedFields

def outputEnumSchema : Schema := enumOf "OutputEnumSchema" ["EnumSchema", "OutputSchema"] enumMark describedFields

def outputArraySchema : Schema :=
  arrayOf "OutputArraySchema" ["ArraySchema", "OutputSchema"] outputKinds arrayMark describedFields

def basicFields (secondaryFiles : Schema) : List SchemaField := [
  .optionalText "label",
  .plain "secondaryFiles" secondaryFiles,
  .flag "streamable"]

def outputRecordField : Schema :=
  undocumented "OutputRecordField" ["RecordField", "FieldBase", "OutputFormat"] (memberFields [
    "CWLType", outputRecordSchema, outputEnumSchema, outputArraySchema] outputKinds ++
    basicFields (optionalMany "SecondaryFileSchema") ++ [.evaluated "format"])

def commandInputArraySchema : Schema :=
  arrayOf "CommandInputArraySchema" ["InputArraySchema", "CommandInputSchema", "CommandLineBindable"]
    commandInputKinds arrayMark (describedFields ++ [.inputBinding])

def loadListingRequirement : Schema :=
  requirement "LoadListingRequirement" [.plain "loadListing" (optional "LoadListingEnum")]

def commandLineBindable : Schema := undocumented "CommandLineBindable" [] [.inputBinding]

def commandOutputRecordSchema : Schema :=
  recordOf "CommandOutputRecordSchema" ["OutputRecordSchema"] "CommandOutputRecordField" recordMark describedFields

def commandOutputEnumSchema : Schema :=
  enumOf "CommandOutputEnumSchema" ["OutputEnumSchema"] enumMark describedFields

def commandOutputArraySchema : Schema :=
  arrayOf "CommandOutputArraySchema" ["OutputArraySchema"] commandOutputKinds arrayMark describedFields

def commandOutputRecordField : Schema :=
  undocumented "CommandOutputRecordField" ["OutputRecordField"] (memberFields [
    "CWLType", commandOutputRecordSchema, commandOutputEnumSchema, commandOutputArraySchema] commandOutputKinds ++
    basicFields (optionalMany "SecondaryFileSchema") ++ [.evaluated "format", .outputBinding])

def stdin : Schema := symbolic "stdin" [] ["stdin"]

def commandInputParameter : Schema :=
  documented "CommandInputParameter" ["InputParameter"] (parameterFields ++ .formats :: loadFields ++ [
    .plain "default" (optional "Any"),
    .plain "type" (defining [
      "CWLType", stdin, "CommandInputRecordSchema", "CommandInputEnumSchema", "CommandInputArraySchema"]
      commandInputKinds),
    .inputBinding])

def commandOutputParameter : Schema :=
  documented "CommandOutputParameter" ["OutputParameter"] (parameterFields ++ [
    .evaluated "format",
    .plain "type" (defining [
      "CWLType", stdout, stderr, "CommandOutputRecordSchema", "CommandOutputEnumSchema",
      "CommandOutputArraySchema"] commandOutputKinds),
    .outputBinding])

def inplaceUpdateRequirement : Schema :=
  requirement "InplaceUpdateRequirement" [.plain "inplaceUpdate" "boolean"]

def expressionToolOutputParameter : Schema :=
  undocumented "ExpressionToolOutputParameter" ["OutputParameter"] (parameterFields ++ [
    .evaluated "format",
    .plain "type" (oneOrMore outputKinds)])

def workflowInputParameter : Schema :=
  undocumented "WorkflowInputParameter" ["InputParameter"] (parameterFields ++ .formats :: loadFields ++ [
    .plain "default" (optional "Any"),
    .plain "type" (oneOrMore inputKinds),
    .plain "inputBinding" (optional "InputBinding")])

def workflowStepOutput : Schema := documented "WorkflowStepOutput" ["Identified"] [.optionalText "id"]

def workflowType : Schema :=
  documented "Workflow" ["Process"] (processFields "WorkflowInputParameter"
    "WorkflowOutputParameter" requirementNames ++ [
    .mapped "steps" "id" none (.union [.array "WorkflowStep"])])

/-! ## What a later version changes -/

structure Variant where
  version : String
  cwlType : Schema
  /-- What may stand for a value that is evaluated. -/
  evaluable : List Schema
  position : Schema
  expression : Schema
  /-- How one of several sources is picked. -/
  pickValue : List SchemaField
  methods : List Schema
  condition : List SchemaField

namespace Variant

variable (v : Variant)

def secondaryFileSchema : Schema :=
  undocumented "SecondaryFileSchema" [] [
    .plain "pattern" evaluated,
    .plain "required" (.union ("null" :: "boolean" :: v.evaluable))]

def inputRecordField : Schema :=
  undocumented "InputRecordField" ["RecordField", "FieldBase", "InputFormat", "LoadContents"] (memberFields [
    "CWLType", inputRecordSchema, inputEnumSchema, inputArraySchema] inputKinds ++
    basicFields (.union ["null", v.secondaryFileSchema, .array "SecondaryFileSchema"]) ++ .formats :: loadFields)

def commandInputEnumSchema : Schema :=
  enumOf "CommandInputEnumSchema" ["InputEnumSchema", "CommandInputSchema", "CommandLineBindable"] enumMark
    (describedFields ++ [.plain "inputBinding" (optional (bindingAt v.position))])

def commandInputRecordField : Schema :=
  undocumented "CommandInputRecordField" ["InputRecordField", "CommandLineBindable"] (memberFields [
    "CWLType", "CommandInputRecordSchema", v.commandInputEnumSchema, commandInputArraySchema] commandInputKinds ++
    basicFields (optionalMany "SecondaryFileSchema") ++ .formats :: loadFields ++ [.inputBinding])

def commandInputRecordSchema : Schema :=
  recordOf "CommandInputRecordSchema" ["InputRecordSchema", "CommandInputSchema", "CommandLineBindable"]
    v.commandInputRecordField recordMark (describedFields ++ [.inputBinding])

def schemaDefRequirement : Schema :=
  requirement "SchemaDefRequirement" [
    .plain "types" (.array (.union [
      v.commandInputRecordSchema, "CommandInputEnumSchema", "CommandInputArraySchema"]))]

def commandOutputBinding : Schema :=
  documented "CommandOutputBinding" ["LoadContents"] (loadFields ++ [
    .plain "glob" (.union ["null", "string", "Expression", .array "string"]),
    .plain "outputEval" (.union ("null" :: v.evaluable))])

def initialWorkDirRequirement : Schema :=
  workDir ["null", "File", .array (.union ["File", "Directory"]), "Directory", dirent] v.evaluable

def workReuse : Schema := requirement "WorkReuse" [.plain "enableReuse" (.union ("boolean" :: v.evaluable))]

def networkAccess : Schema :=
  requirement "NetworkAccess" [.plain "networkAccess" (.union ("boolean" :: v.evaluable))]

def toolTimeLimit : Schema := requirement "ToolTimeLimit" [.plain "timelimit" (.union ("long" :: v.evaluable))]

def commandLineTool : Schema :=
  documented "CommandLineTool" ["Process"] (processFields "CommandInputParameter" "CommandOutputParameter" [
      "InlineJavascriptRequirement", "SchemaDefRequirement", "LoadListingRequirement",
      dockerRequirement, softwareRequirement, v.initialWorkDirRequirement, envVarRequirement,
      shellCommandRequirement, resources v.evaluable, v.workReuse, v.networkAccess,
      inplaceUpdateRequirement, v.toolTimeLimit, subworkflowFeatureRequirement,
      scatterFeatureRequirement, multipleInputFeatureRequirement,
      stepInputExpressionRequirement] ++ commandFields)

def expressionTool : Schema :=
  documented "ExpressionTool" ["Process"] (processFields "WorkflowInputParameter"
    "ExpressionToolOutputParameter" requirementNames ++ [
    .plain "expression" v.expression])

def workflowOutputParameter : Schema :=
  documented "WorkflowOutputParameter" ["OutputParameter"] (parameterFields ++ [
    .evaluated "format",
    .texts "outputSource",
    .plain "linkMerge" (optional "LinkMergeMethod")] ++ v.pickValue ++ [
    .plain "type" (oneOrMore outputKinds)])

def workflowStepInput : Schema :=
  documented "WorkflowStepInput" ["Identified", "Sink", "LoadContents", "Labeled"] ([
    .optionalText "id",
    .texts "source",
    .plain "linkMerge" (optional "LinkMergeMethod")] ++ v.pickValue ++ loadFields ++ [
    .optionalText "label",
    .plain "default" (optional "Any"),
    .evaluated "valueFrom"])

def workflowStep : Schema :=
  documented "WorkflowStep" ["Identified", "Labeled", "Documented"] ([
    .optionalText "id",
    .optionalText "label",
    .texts "doc",
    .mapped "in" "id" (some "source") (.array "WorkflowStepInput"),
    .plain "out" (.union [.array (.union ["string", "WorkflowStepOutput"])]),
    .requirements requirementNames,
    .hints,
    .plain "run" (.union ["string", "CommandLineTool", "ExpressionTool", workflowType])] ++ v.condition ++ [
    .texts "scatter",
    .plain "scatterMethod" (optional "ScatterMethod")])

def types : Schema :=
  .union ([
    primitiveType, anyType, recordField, versions ["v1.1.0-dev1", v.version], v.cwlType, fileType, loadListingEnum,
    expressionType, inputBinding, v.inputRecordField, outputRecordField, inlineJavascriptRequirement,
    v.schemaDefRequirement, loadListingRequirement, environmentDef, v.commandOutputBinding,
    commandLineBindable, commandOutputRecordField, commandInputParameter, commandOutputParameter,
    v.commandLineTool, expressionToolOutputParameter, workflowInputParameter, v.expressionTool,
    linkMergeMethod] ++ v.methods ++ [
    v.workflowOutputParameter, v.workflowStepInput, workflowStepOutput, scatterMethod, v.workflowStep])

end Variant

def types : Schema := Variant.types {
  version := "v1.1"
  cwlType := V10.cwlType
  evaluable := ["Expression"]
  position := .union ["null", "int", "Expression"]
  expression := "Expression"
  pickValue := []
  methods := []
  condition := [] }

end CwlService.Schema.V11

/-! # Version 1.2.0-dev1

The types are those of version 1.1, except that a text may stand wherever a value is evaluated. One of
several sources can be picked, and steps have conditions. -/
namespace CwlService.Schema.V12Dev1

def pickValueMethod : Schema :=
  symbolic "PickValueMethod" [] ["first_non_null", "only_non_null", "all_non_null"]

def types : Schema := V11.Variant.types {
  version := "v1.2.0-dev1"
  cwlType := symbolic "CWLType" ["PrimitiveType"] ["File", "Directory"]
  evaluable := ["string", "Expression"]
  position := .union ["int", "Expression", "string", "null"]
  expression := evaluated
  pickValue := [.plain "pickValue" (optional "PickValueMethod")]
  methods := [pickValueMethod]
  condition := [.plain "when" (optional "Expression")] }

end CwlService.Schema.V12Dev1
