import CwlService.Schema.Basic

/-! # Version 1.0

The types of this version of the language, each where the version first defines it. -/
namespace CwlService.Schema.V10

def parameterFields : List SchemaField := [
  .optionalText "label",
  .plain "secondaryFiles" (.union ["null", "string", "Expression", .array evaluated]),
  .flag "streamable",
  .texts "doc",
  .text "id"]

def processFields (inputs outputs : Schema) (requirements : List Schema) : List SchemaField := [
  .optionalText "id",
  .parameters "inputs" inputs,
  .parameters "outputs" outputs,
  .requirements requirements,
  .hints,
  .optionalText "label",
  .optionalText "doc",
  .plain "cwlVersion" (optional "CWLVersion"),
  .text "class"]

def requirementNames : List Schema := [
  "InlineJavascriptRequirement", "SchemaDefRequirement", "DockerRequirement", "SoftwareRequirement",
  "InitialWorkDirRequirement", "EnvVarRequirement", "ShellCommandRequirement",
  "ResourceRequirement", "SubworkflowFeatureRequirement", "ScatterFeatureRequirement",
  "MultipleInputFeatureRequirement", "StepInputExpressionRequirement"]

def primitiveType : Schema :=
  symbolic "PrimitiveType" [] ["null", "boolean", "int", "long", "float", "double", "string"]

def anyType : Schema := symbolic "Any" [] ["Any"]

def recordSymbol : Schema := symbolic "Record_symbol" [] ["record"]

def recordSchema : Schema :=
  recordOf "RecordSchema" [] "RecordField" recordSymbol []

def enumSymbol : Schema := symbolic "Enum_symbol" [] ["enum"]

def enumSchema : Schema :=
  documented "EnumSchema" [] [.plain "symbols" (.array "string"), .plain "type" enumSymbol]

def arraySymbol : Schema := symbolic "Array_symbol" [] ["array"]

def arraySchema : Schema :=
  arrayOf "ArraySchema" [] plainKinds arraySymbol []

def memberFields (types kinds : List Schema) : List SchemaField :=
  [.text "name", .optionalText "doc", .plain "type" (defining types kinds)]

def recordField : Schema :=
  documented "RecordField" [] (memberFields [
    "PrimitiveType", recordSchema, enumSchema, arraySchema] plainKinds)

def cwlVersion : Schema := versions []

def cwlType : Schema :=
  symbolic "CWLType" ["PrimitiveType"] ["File", "Directory", "stdout", "stderr"]

def fileClass : Schema := symbolic "File_class" [] ["File"]

def directoryClass : Schema := symbolic "Directory_class" [] ["Directory"]

def directoryType : Schema :=
  documented "Directory" [] [
    .plain "class" directoryClass,
    .optionalText "location",
    .optionalText "path",
    .optionalText "basename",
    .plain "listing" (optional (.array (.union ["File", "Directory"])))]

def fileType : Schema :=
  documented "File" [] [
    .plain "class" fileClass,
    .optionalText "location",
    .optionalText "path",
    .optionalText "basename",
    .optionalText "dirname",
    .optionalText "nameroot",
    .optionalText "nameext",
    .optionalText "checksum",
    .plain "size" (optional "long"),
    .plain "secondaryFiles" (optional (.array (.union ["File", directoryType]))),
    .optionalText "format",
    .optionalText "contents"]

def expressionType : Schema := symbolic "Expression" [] ["ExpressionPlaceholder"]

def inputRecordSchema : Schema :=
  recordOf "InputRecordSchema" ["RecordSchema", "InputSchema"] "InputRecordField" "Record_symbol" [
    .optionalText "label", .optionalText "name"]

def commandLineBinding : Schema := bindingAt (optional "int")

def inputEnumSchema : Schema :=
  enumOf "InputEnumSchema" ["EnumSchema", "InputSchema"] "Enum_symbol" [
    .optionalText "label", .optionalText "name", .plain "inputBinding" (optional commandLineBinding)]

def inputArraySchema : Schema :=
  arrayOf "InputArraySchema" ["ArraySchema", "InputSchema"] inputKinds "Array_symbol" [
    .optionalText "label", .inputBinding]

def inputRecordField : Schema :=
  undocumented "InputRecordField" ["RecordField"] (memberFields [
    "CWLType", inputRecordSchema, inputEnumSchema, inputArraySchema] inputKinds ++ [
    .inputBinding, .optionalText "label"])

def outputRecordSchema : Schema :=
  recordOf "OutputRecordSchema" ["RecordSchema", "OutputSchema"] "OutputRecordField" "Record_symbol" [
    .optionalText "label"]

def commandOutputBinding : Schema :=
  documented "CommandOutputBinding" ["OutputBinding"] [
    .plain "glob" (.union ["null", "string", "Expression", .array "string"]),
    .flag "loadContents",
    .evaluated "outputEval"]

def outputEnumSchema : Schema :=
  enumOf "OutputEnumSchema" ["EnumSchema", "OutputSchema"] "Enum_symbol" [
    .optionalText "label", .plain "outputBinding" (optional commandOutputBinding)]

def outputArraySchema : Schema :=
  arrayOf "OutputArraySchema" ["ArraySchema", "OutputSchema"] outputKinds "Array_symbol" [
    .optionalText "label", .outputBinding]

def outputRecordField : Schema :=
  undocumented "OutputRecordField" ["RecordField"] (memberFields [
    "CWLType", outputRecordSchema, outputEnumSchema, outputArraySchema] outputKinds ++ [.outputBinding])

def inputFields (kinds : List Schema) : List SchemaField :=
  parameterFields ++ [
    .formats, .inputBinding, .plain "default" (optional "Any"), .plain "type" (optionalOneOrMore kinds)]

def outputFields : List SchemaField := parameterFields ++ [.outputBinding, .evaluated "format"]

def inputParameter : Schema := undocumented "InputParameter" ["Parameter"] (inputFields inputKinds)

def outputParameter : Schema := undocumented "OutputParameter" ["Parameter"] outputFields

def inlineJavascriptRequirement : Schema :=
  requirement "InlineJavascriptRequirement" [.plain "expressionLib" (optional (.array "string"))]

def schemaDefRequirement : Schema :=
  requirement "SchemaDefRequirement" [
    .plain "types" (.array (.union ["InputRecordSchema", "InputEnumSchema", "InputArraySchema"]))]

def environmentDef : Schema :=
  documented "EnvironmentDef" [] [.text "envName", .plain "envValue" evaluated]

def commandInputRecordSchema : Schema :=
  recordOf "CommandInputRecordSchema" ["InputRecordSchema"] "CommandInputRecordField" "Record_symbol" [
    .optionalText "label", .optionalText "name"]

def commandInputEnumSchema : Schema :=
  enumOf "CommandInputEnumSchema" ["InputEnumSchema"] "Enum_symbol" [
    .optionalText "label", .optionalText "name", .inputBinding]

def commandInputArraySchema : Schema :=
  arrayOf "CommandInputArraySchema" ["InputArraySchema"] commandInputKinds "Array_symbol" [
    .optionalText "label", .inputBinding]

def commandInputRecordField : Schema :=
  undocumented "CommandInputRecordField" ["InputRecordField"] (memberFields [
    "CWLType", commandInputRecordSchema, commandInputEnumSchema, commandInputArraySchema]
    commandInputKinds ++ [.inputBinding, .optionalText "label"])

def commandOutputRecordSchema : Schema :=
  recordOf "CommandOutputRecordSchema" ["OutputRecordSchema"] "CommandOutputRecordField" "Record_symbol" [
    .optionalText "label", .optionalText "name"]

def commandOutputEnumSchema : Schema :=
  enumOf "CommandOutputEnumSchema" ["OutputEnumSchema"] "Enum_symbol" [
    .optionalText "label", .outputBinding]

def commandOutputArraySchema : Schema :=
  arrayOf "CommandOutputArraySchema" ["OutputArraySchema"] commandOutputKinds "Array_symbol" [
    .optionalText "label", .outputBinding]

def commandOutputRecordField : Schema :=
  undocumented "CommandOutputRecordField" ["OutputRecordField"] (memberFields [
    "CWLType", commandOutputRecordSchema, commandOutputEnumSchema, commandOutputArraySchema]
    commandOutputKinds ++ [.outputBinding])

def commandInputParameter : Schema :=
  documented "CommandInputParameter" ["InputParameter"] (inputFields commandInputKinds)

def stdout : Schema := symbolic "stdout" [] ["stdout"]

def stderr : Schema := symbolic "stderr" [] ["stderr"]

def commandOutputParameter : Schema :=
  documented "CommandOutputParameter" ["OutputParameter"] (outputFields ++ [
    .plain "type" (defining [
      "null", "CWLType", stdout, stderr, "CommandOutputRecordSchema", "CommandOutputEnumSchema",
      "CommandOutputArraySchema"] commandOutputKinds)])

def dockerRequirement : Schema :=
  requirement "DockerRequirement" [
    .optionalText "dockerPull",
    .optionalText "dockerLoad",
    .optionalText "dockerFile",
    .optionalText "dockerImport",
    .optionalText "dockerImageId",
    .optionalText "dockerOutputDirectory"]

def softwarePackage : Schema :=
  undocumented "SoftwarePackage" [] [
    .text "package",
    .plain "version" (optional (.array "string")),
    .plain "specs" (optional (.array "string"))]

def softwareRequirement : Schema :=
  requirement "SoftwareRequirement" [
    .mapped "packages" "package" (some "specs") (.array softwarePackage)]

def dirent : Schema :=
  documented "Dirent" [] [
    .evaluated "entryname",
    .plain "entry" evaluated,
    .flag "writable"]

def initialWorkDirRequirement : Schema := workDir ["File", "Directory", dirent] ["string", "Expression"]

def envVarRequirement : Schema :=
  requirement "EnvVarRequirement" [
    .mapped "envDef" "envName" (some "envValue") (.array "EnvironmentDef")]

def shellCommandRequirement : Schema := requirement "ShellCommandRequirement" []

def resourceRequirement : Schema := resources ["string", "Expression"]

def subworkflowFeatureRequirement : Schema := requirement "SubworkflowFeatureRequirement" []

def scatterFeatureRequirement : Schema := requirement "ScatterFeatureRequirement" []

def multipleInputFeatureRequirement : Schema := requirement "MultipleInputFeatureRequirement" []

def stepInputExpressionRequirement : Schema := requirement "StepInputExpressionRequirement" []

def commandLineTool : Schema :=
  documented "CommandLineTool" ["Process"] (processFields "CommandInputParameter" "CommandOutputParameter" [
      "InlineJavascriptRequirement", "SchemaDefRequirement", dockerRequirement, softwareRequirement,
      initialWorkDirRequirement, envVarRequirement, shellCommandRequirement, resourceRequirement,
      subworkflowFeatureRequirement, scatterFeatureRequirement, multipleInputFeatureRequirement,
      stepInputExpressionRequirement] ++ commandFields)

def expressionToolOutputParameter : Schema :=
  undocumented "ExpressionToolOutputParameter" ["OutputParameter"] (outputFields ++ [
    .plain "type" (optionalOneOrMore outputKinds)])

def expressionTool : Schema :=
  documented "ExpressionTool" ["Process"] (processFields "InputParameter"
    "ExpressionToolOutputParameter" requirementNames ++ [
    .plain "expression" evaluated])

def linkMergeMethod : Schema := symbolic "LinkMergeMethod" [] ["merge_nested", "merge_flattened"]

def workflowOutputParameter : Schema :=
  documented "WorkflowOutputParameter" ["OutputParameter"] (outputFields ++ [
    .texts "outputSource",
    .plain "linkMerge" (optional "LinkMergeMethod"),
    .plain "type" (optionalOneOrMore outputKinds)])

def workflowStepInput : Schema :=
  documented "WorkflowStepInput" ["Sink"] [
    .texts "source",
    .plain "linkMerge" (optional "LinkMergeMethod"),
    .text "id",
    .plain "default" (optional "Any"),
    .evaluated "valueFrom"]

def workflowStepOutput : Schema := documented "WorkflowStepOutput" [] [.text "id"]

def scatterMethod : Schema :=
  symbolic "ScatterMethod" [] ["dotproduct", "nested_crossproduct", "flat_crossproduct"]

def workflowType : Schema :=
  documented "Workflow" ["Process"] (processFields "InputParameter" "WorkflowOutputParameter" requirementNames ++ [
    .mapped "steps" "id" none (.union [.array "WorkflowStep"])])

def workflowStep : Schema :=
  documented "WorkflowStep" [] [
    .text "id",
    .mapped "in" "id" (some "source") (.array "WorkflowStepInput"),
    .plain "out" (.union [.array (.union ["string", "WorkflowStepOutput"])]),
    .requirements requirementNames,
    .hints,
    .optionalText "label",
    .optionalText "doc",
    .plain "run" (.union ["string", "CommandLineTool", "ExpressionTool", workflowType]),
    .texts "scatter",
    .plain "scatterMethod" (optional "ScatterMethod")]

def types : Schema :=
  .union [
    primitiveType, anyType, recordField, cwlVersion, cwlType, fileType, expressionType,
    inputRecordField, outputRecordField, inputParameter, outputParameter,
    inlineJavascriptRequirement, schemaDefRequirement, environmentDef, commandInputRecordField,
    commandOutputRecordField, commandInputParameter, commandOutputParameter, commandLineTool,
    expressionToolOutputParameter, expressionTool, linkMergeMethod, workflowOutputParameter,
    workflowStepInput, workflowStepOutput, scatterMethod, workflowStep]

end CwlService.Schema.V10
